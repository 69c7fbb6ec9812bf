import ModelScript.Proofs.Expression.Shape
import ModelScript.Proofs.Lookup.Basic

/-!
# Leading constructs by look-ups

The construct that tokens begin with, found in a table of the kinds of their first tokens.  What the
table tells is what `Construct.of?` tells (`classify_eq`), without the texts that come with it:
these are looked up later, in the first token.
-/

namespace ModelScript.Lookup

open Looking (item item_eq)
open Token (Trimmed)

inductive Lead where
  | parentheses
  | prefixed
  | list
  | call
  | access
  | atom (kind : Atom)
  deriving DecidableEq, Repr

/-- The leading constructs, each with the kinds of its first tokens, in the order in which they are
tried. -/
def leads : List (Lead × List Kind) :=
  [(.parentheses, [.mark (.opening .round)]),
    (.prefixed, [.prefixOperator]),
    (.list, [.mark (.opening .square)]),
    (.call, [.ident, .mark (.opening .round)]),
    (.access, [.ident, .mark (.opening .square)]),
    (.atom .identifier, [.ident]),
    (.atom .integer, [.integer]),
    (.atom .float, [.float]),
    (.atom .string, [.string]),
    (.atom .boolean, [.boolean])]

/-- Whether the very first token is a prefix operator or a sign. -/
def isPrefixed (tokens : List Token) : Looking Bool := do
  if tokens.isEmpty then return false
  let first ← item tokens 0
  return first.kind = .prefixOperator
    || first.kind = .operator && first.payload?.any signSpellings.contains

/-- The first construct of a table that the tokens begin with. -/
def classifyBy : List (Lead × List Kind) → List Token → Looking (Option Lead)
  | [], _ => return none
  | (lead, kinds) :: rest, tokens => do
    let found ← if lead = .prefixed then isPrefixed tokens
      else pure (Token.beginWith kinds .newline tokens)
    if found then return some lead else classifyBy rest tokens

/-- The construct that the tokens begin with. -/
def classify (tokens : List Token) : Looking (Option Lead) := classifyBy leads tokens

/-- A construct without its texts. -/
def leadOf : Construct → Lead
  | .parentheses => .parentheses
  | .prefixed _ => .prefixed
  | .list => .list
  | .call _ => .call
  | .access _ => .access
  | .atom kind _ => .atom kind

theorem isPrefixed_eq (tokens : List Token) :
    isPrefixed tokens = pure (Construct.prefixOf? tokens).isSome := by
  cases tokens with
  | nil => rfl
  | cons t rest =>
    cases t with
    | operator op =>
      show pure (signSpellings.contains op) = pure (Option.isSome (if _ then _ else _))
      cases signSpellings.contains op <;> rfl
    | _ => rfl

/-- Tokens begin with a kind if the first that is no line break has it. -/
theorem beginWith_cons {t : Token} (ht : t ≠ .newline) (k : Kind) (kinds : List Kind)
    (rest : List Token) :
    Token.beginWith (k :: kinds) .newline (t :: rest)
      = (k == t.kind && Token.beginWith kinds .newline rest) := by
  have hk : t.kind ≠ .newline := mt (Token.kind_eq_newline_iff t).1 ht
  unfold Token.beginWith
  rw [List.map_cons, List.filter_cons_of_pos (by simpa using hk), List.isPrefixOf_cons_cons]

theorem beginWith_singleton (k : Kind) (tokens : List Token) :
    Token.beginWith [k] .newline tokens
      = ((Token.significant? tokens).map Token.kind == some k) := by
  induction tokens with
  | nil => rfl
  | cons t rest ih =>
    by_cases ht : t = .newline
    · subst ht
      exact ih
    · rw [beginWith_cons ht]
      have hs : Token.significant? (t :: rest) = some t := by
        unfold Token.significant?
        rw [List.find?_cons_of_pos (by simp [Token.isNewline_eq_false_iff, ht])]
      rw [hs]
      simp [Token.beginWith, BEq.comm]

/-- A name leads a call, an access or nothing but itself, which the token behind it decides. -/
theorem leadOf_ofName (name : String) (following : Option Token) :
    leadOf (Construct.ofName name following)
      = if following.map Token.kind == some (.mark (.opening .round)) then .call
        else if following.map Token.kind == some (.mark (.opening .square)) then .access
        else .atom .identifier := by
  unfold Construct.ofName
  split
  · rfl
  · rfl
  · next hround hsquare =>
    have hnot (b : Bracket) (h : following ≠ some (.opening b)) :
        (following.map Token.kind == some (.mark (.opening b))) = false := by
      rw [beq_eq_false_iff_ne]
      intro he
      obtain ⟨t, ht, hk⟩ := Option.map_eq_some_iff.1 he
      rw [(Token.kind_eq_mark_iff t _).1 hk] at ht
      exact h ht
    rw [hnot .round hround, hnot .square hsquare]
    rfl

theorem classifyBy_cons {lead : Lead} (hl : lead ≠ .prefixed) (kinds : List Kind)
    (rest : List (Lead × List Kind)) (tokens : List Token) :
    classifyBy ((lead, kinds) :: rest) tokens
      = if Token.beginWith kinds .newline tokens then pure (some lead)
        else classifyBy rest tokens := by
  conv => lhs; unfold classifyBy
  rw [if_neg hl, pure_bind]

theorem classifyBy_prefixed_cons (kinds : List Kind) (rest : List (Lead × List Kind))
    (tokens : List Token) :
    classifyBy ((.prefixed, kinds) :: rest) tokens
      = if (Construct.prefixOf? tokens).isSome then pure (some .prefixed)
        else classifyBy rest tokens := by
  conv => lhs; unfold classifyBy
  rw [if_pos rfl, isPrefixed_eq, pure_bind]

theorem classify_eq {tokens : List Token} (h : Trimmed tokens) :
    classify tokens = pure ((Construct.of? tokens).map leadOf) := by
  unfold Construct.of?
  rw [h.trimStart_eq]
  cases tokens with
  | nil => rfl
  | cons t rest =>
    have ht : t ≠ .newline := fun he => h.head (by rw [he]; rfl)
    unfold classify leads
    simp only [classifyBy_cons, classifyBy_prefixed_cons, beginWith_cons ht, ne_eq, reduceCtorEq,
      not_false_eq_true]
    cases t with
    | ident name =>
      simp only [beginWith_singleton, Construct.prefixOf?, Option.map_some, leadOf_ofName]
      cases (Token.significant? rest).map Token.kind == some (.mark (.opening .round)) with
      | true => rfl
      | false =>
        cases (Token.significant? rest).map Token.kind == some (.mark (.opening .square)) with
        | true => rfl
        | false => rfl
    | mark m =>
      cases m with
      | opening b => cases b <;> rfl
      | closing b => cases b <;> rfl
      | _ => rfl
    | operator op =>
      cases Construct.prefixOf? (.operator op :: rest) with
      | none => rfl
      | some op => rfl
    | newline => exact absurd rfl ht
    | _ => rfl

end ModelScript.Lookup
