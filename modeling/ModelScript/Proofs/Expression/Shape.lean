import ModelScript.Expression.Parser
import ModelScript.Proofs.Reading.Yields
import ModelScript.Proofs.Scope.Balanced
import ModelScript.Proofs.Token.Blank

/-!
# The shapes of expressions

What the functions of one reading step do to a list of tokens, told by the pieces that the list is
put together from instead of by indices.  `Construct.Leads` splits a list by its leading construct,
and `Whole` says that a list is one construct from its first token to its last, as far as brackets
tell.
-/

namespace ModelScript

open Token (Blank Trimmed trimmed_of_forall enclose)

/-- The kind and the text of a token that is an expression by itself. -/
def Token.atom? : Token → Option (Atom × String)
  | .ident name => some (.identifier, name)
  | .integer text => some (.integer, text)
  | .float text => some (.float, text)
  | .string raw => some (.string, raw)
  | .boolean text => some (.boolean, text)
  | _ => none

/-- A token that neither of two runs holds ends them at the same place. -/
theorem append_cons_inj {α : Type} {a : α} {xs ys xs' ys' : List α}
    (h : xs ++ a :: ys = xs' ++ a :: ys') (hx : ∀ x ∈ xs, x ≠ a) (hx' : ∀ x ∈ xs', x ≠ a) :
    xs = xs' ∧ ys = ys' := by
  induction xs generalizing xs' with
  | nil =>
    cases xs' with
    | nil => exact ⟨rfl, (List.cons.inj h).2⟩
    | cons x xs' => exact absurd (List.cons.inj h).1.symm (hx' x (by simp))
  | cons x xs ih =>
    cases xs' with
    | nil => exact absurd (List.cons.inj h).1 (hx x (by simp))
    | cons x' xs' =>
      rw [List.cons_append, List.cons_append] at h
      obtain ⟨rfl, htail⟩ := List.cons.inj h
      obtain ⟨rfl, rfl⟩ := ih htail (fun y hy => hx y (.tail _ hy)) (fun y hy => hx' y (.tail _ hy))
      exact ⟨rfl, rfl⟩

/-! ## Leading constructs -/

namespace Construct

/-- Tokens by the construct that they begin with. -/
inductive Leads : List Token → Construct → Prop
  | parentheses (rest : List Token) : Leads (.opening .round :: rest) .parentheses
  | prefixed {t : Token} {op : String} (rest : List Token) (h : prefixOf? [t] = some op) :
    Leads (t :: rest) (.prefixed op)
  | list (rest : List Token) : Leads (.opening .square :: rest) .list
  | call (name : String) {breaks : List Token} (rest : List Token) (h : Blank breaks) :
    Leads (.ident name :: breaks ++ .opening .round :: rest) (.call name)
  | access (name : String) {breaks : List Token} (rest : List Token) (h : Blank breaks) :
    Leads (.ident name :: breaks ++ .opening .square :: rest) (.access name)
  | atom {t : Token} {kind : Atom} {text : String} (rest : List Token)
    (h : t.atom? = some (kind, text)) : Leads (t :: rest) (.atom kind text)

theorem significant?_blank_append {breaks : List Token} (h : Blank breaks) {t : Token}
    (ht : t ≠ .newline) (rest : List Token) :
    Token.significant? (breaks ++ t :: rest) = some t := by
  unfold Token.significant?
  have hb : breaks.find? (!·.isNewline) = none := by
    rw [List.find?_eq_none]
    intro a ha
    rw [h a ha]
    simp [Token.isNewline]
  rw [List.find?_append, hb, List.find?_cons_of_pos (by simp [Token.isNewline_eq_false_iff, ht])]
  rfl

/-- The first token that is no line break has only line breaks in front of it. -/
theorem exists_of_significant? {ts : List Token} {t : Token} (h : Token.significant? ts = some t) :
    ∃ breaks rest, Blank breaks ∧ ts = breaks ++ t :: rest := by
  obtain ⟨-, breaks, rest, rfl, hb⟩ := List.find?_eq_some_iff_append.1 h
  refine ⟨breaks, rest, fun a ha => ?_, rfl⟩
  have := hb a ha
  rw [← Token.isNewline_iff]
  simpa using this

theorem significant?_eq_none_iff (ts : List Token) : Token.significant? ts = none ↔ Blank ts := by
  unfold Token.significant? Blank
  rw [List.find?_eq_none]
  refine forall₂_congr fun t _ => ?_
  rw [← Token.isNewline_iff]
  simp

theorem prefixOf?_cons (t : Token) (rest : List Token) : prefixOf? (t :: rest) = prefixOf? [t] := by
  cases t <;> rfl

theorem leads_ofName (name : String) (rest : List Token) :
    Leads (.ident name :: rest) (ofName name (Token.significant? rest)) := by
  unfold ofName
  split
  · next h =>
    obtain ⟨breaks, rest, hb, rfl⟩ := exists_of_significant? h
    exact .call name rest hb
  · next h =>
    obtain ⟨breaks, rest, hb, rfl⟩ := exists_of_significant? h
    exact .access name rest hb
  · exact .atom rest rfl

theorem leads_of_of? {ts : List Token} {c : Construct} (ht : Trimmed ts) (h : of? ts = some c) :
    Leads ts c := by
  unfold of? at h
  rw [ht.trimStart_eq] at h
  split at h
  · next op hp =>
    cases h
    cases ts with
    | nil => cases hp
    | cons t rest => exact .prefixed rest (by rw [← hp, prefixOf?_cons t rest])
  · split at h
    · cases h
      exact .parentheses _
    · cases h
      exact .list _
    · cases h
      exact leads_ofName _ _
    · cases h
      exact .atom _ rfl
    · cases h
      exact .atom _ rfl
    · cases h
      exact .atom _ rfl
    · cases h
      exact .atom _ rfl
    · cases h

/-- An atom is told from its token, unless an opening bracket follows it. -/
theorem of?_atom {t : Token} {kind : Atom} {text : String} (h : t.atom? = some (kind, text))
    {tail : List Token} (ht : ∀ b, Token.significant? tail ≠ some (.opening b)) :
    of? (t :: tail) = some (.atom kind text) := by
  cases t <;> cases h <;> try rfl
  simp only [of?, prefixOf?, Token.trimStart_cons_of_ne (t := .ident _) (by simp)]
  unfold ofName
  split
  · next h => exact absurd h (ht .round)
  · next h => exact absurd h (ht .square)
  · rfl

theorem of?_ident_opening (name : String) {breaks : List Token} (hb : Blank breaks) (b : Bracket)
    (rest : List Token) :
    of? (.ident name :: breaks ++ .opening b :: rest) = some (ofName name (some (.opening b))) := by
  have hs := significant?_blank_append hb (t := .opening b) (by simp) rest
  simp only [of?, prefixOf?, List.cons_append, Token.trimStart_cons_of_ne (t := .ident _) (by simp),
    hs]

end Construct

/-! ## Whole constructs -/

theorem Token.Blank.ident_ne_opening {breaks : List Token} (h : Blank breaks) (name : String)
    (b : Bracket) : ∀ a ∈ .ident name :: breaks, a ≠ .opening b := by
  intro a ha
  rcases List.mem_cons.1 ha with rfl | ha
  · simp
  · rw [h a ha]
    simp

/-- One construct and nothing behind it: a token, or brackets that are closed by the last token, in
parentheses not without anything in them. -/
inductive Whole : List Token → Prop
  | atom {t : Token} {kind : Atom} {text : String} (h : t.atom? = some (kind, text)) : Whole [t]
  | grouped {inner : List Token} (hc : Scope.Closes .round inner) (hi : ¬ Blank inner) :
    Whole (enclose .round inner)
  | list {inner : List Token} (hc : Scope.Closes .square inner) : Whole (enclose .square inner)
  | call (name : String) {breaks inner : List Token} (hb : Blank breaks)
    (hc : Scope.Closes .round inner) : Whole (.ident name :: breaks ++ enclose .round inner)
  | access (name : String) {breaks inner : List Token} (hb : Blank breaks)
    (hc : Scope.Closes .square inner) : Whole (.ident name :: breaks ++ enclose .square inner)

theorem Token.ne_newline_of_atom? {t : Token} {kind : Atom} {text : String}
    (h : t.atom? = some (kind, text)) : t ≠ .newline := by
  rintro rfl
  cases h

theorem trimmed_append_enclose (b : Bracket) (before inner : List Token)
    (hb : before.head? ≠ some .newline) :
    Trimmed (before ++ enclose b inner) where
  head := by
    cases before with
    | nil => simp [enclose]
    | cons t before => simpa using hb
  last := by
    rw [Token.getLast?_append_enclose]
    simp

theorem Token.eq_string_of_atom? {t : Token} {text : String}
    (h : t.atom? = some (.string, text)) : t = .string text := by
  cases t <;> cases h
  rfl

/-- A whole construct begins and ends with a token that is no line break. -/
theorem Whole.trimmed {ts : List Token} (h : Whole ts) : Trimmed ts := by
  cases h with
  | atom h =>
    refine trimmed_of_forall fun t ht => ?_
    rw [List.mem_singleton] at ht
    exact ht ▸ Token.ne_newline_of_atom? h
  | grouped hc hi => exact trimmed_append_enclose .round [] _ (by simp)
  | list hc => exact trimmed_append_enclose .square [] _ (by simp)
  | call name hb hc => exact trimmed_append_enclose .round _ _ (by simp)
  | access name hb hc => exact trimmed_append_enclose .square _ _ (by simp)

theorem Whole.ne_nil {ts : List Token} (h : Whole ts) : ts ≠ [] := by
  cases h <;> simp [enclose]

namespace Expr

variable {file : String} {read : ExprReader} {line : Nat}

/-! ## Operators -/

/-- An operator continues a construct where there is one behind it, line breaks apart, and something
behind the operator. -/
theorem split?_eq_some_iff (head tail : List Token) (s : Split) :
    split? head.length (head ++ tail) = some s ↔
      ∃ breaks, Blank breaks ∧ tail = breaks ++ .operator s.operator :: s.right ∧ s.right ≠ []
        ∧ s.left = Token.trimEnd head ∧ s.newlines = Token.newlines head + breaks.length := by
  unfold split?
  rw [List.drop_left, List.take_left]
  constructor
  · intro h
    obtain ⟨breaks, hb, he, hl, -⟩ := Token.exists_eq_trimStart tail
    split at h
    · next op r rest ht =>
      cases h
      exact ⟨breaks, hb, by rw [he, ht], by simp, rfl, by rw [hl]⟩
    · cases h
  · rintro ⟨breaks, hb, rfl, hr, hleft, hn⟩
    obtain ⟨left, op, right, newlines⟩ := s
    obtain ⟨r, rest, rfl⟩ := List.exists_cons_of_ne_nil hr
    obtain ⟨bs, hbs, he, hl, -⟩ := Token.exists_eq_trimStart (breaks ++ .operator op :: r :: rest)
    have ht : Token.trimStart (breaks ++ .operator op :: r :: rest)
        = .operator op :: r :: rest := by
      rw [hb.trimStart_append, Token.trimStart_cons_of_ne (by simp)]
    rw [ht] at he ⊢
    have hlen : bs = breaks := (List.append_cancel_right he).symm
    dsimp only at hleft hn ⊢
    rw [hleft, hn, ← hl, hlen]

theorem split?_nil (head : List Token) : split? head.length head = none := by
  cases h : split? head.length head with
  | none => rfl
  | some s =>
    obtain ⟨breaks, -, ht, -⟩ := (split?_eq_some_iff head [] s).1 (by rwa [List.append_nil])
    simp at ht

/-! ## Brackets -/

theorem bracketed_eq (file : String) (line : Nat) {b : Bracket} (before : List Token)
    {inner : List Token} (hb : ∀ a ∈ before, a ≠ .opening b) (hc : Scope.Closes b inner)
    (tail : List Token) :
    bracketed file b line (before ++ enclose b inner ++ tail)
      = pure (before.length, before.length + 1 + inner.length) := by
  unfold bracketed
  rw [(Scope.range?_eq_some_iff b _ _ _).2 ⟨before, inner, tail, rfl, hb, hc, rfl, rfl⟩]

theorem take_drop_enclose (b : Bracket) (before inner tail : List Token) :
    ((before ++ enclose b inner ++ tail).take (before.length + 1 + inner.length)).drop
      (before.length + 1) = inner := by
  have hshape : before ++ enclose b inner ++ tail
      = (before ++ [.opening b] ++ inner) ++ .closing b :: tail := by simp [enclose]
  rw [hshape, List.take_left' (by simp; omega), List.drop_left' (by simp)]

theorem length_append_enclose (b : Bracket) (before inner : List Token) :
    (before ++ enclose b inner).length = before.length + 1 + inner.length + 1 := by
  rw [List.length_append, Token.length_enclose]
  omega

theorem exists_of_bracketed {b : Bracket} (before : List Token) {rest : List Token} {n : Nat}
    {p : Nat × Nat} (hb : ∀ a ∈ before, a ≠ .opening b)
    (h : (bracketed file b line (before ++ .opening b :: rest)).Yields n p) :
    ∃ inner tail, rest = inner ++ .closing b :: tail ∧ Scope.Closes b inner := by
  unfold bracketed at h
  split at h
  · next range hr =>
    obtain ⟨before', inner, tail, hts, hb', hc, -⟩ := (Scope.range?_eq_some_iff b _ _ _).1 hr
    rw [List.append_assoc, Token.enclose_append] at hts
    obtain ⟨rfl, rfl⟩ := append_cons_inj hts hb hb'
    exact ⟨inner, tail, rfl, hc⟩
  · exact absurd h (Logged.not_yields_fault _ _ _ _ _)

/-- Brackets that are not closed stop the search in the line of the one that opens them. -/
theorem bracketed_of_not_closed (file : String) (line : Nat) {b : Bracket} (before : List Token)
    {rest : List Token} (hb : ∀ a ∈ before, a ≠ .opening b)
    (h : ¬ ∃ inner tail, rest = inner ++ .closing b :: tail ∧ Scope.Closes b inner) :
    bracketed file b line (before ++ .opening b :: rest)
      = Reading.fault file (line + Token.newlines before) (.unmatched b) := by
  have hrange : Scope.range? (.mark (.opening b)) (.mark (.closing b))
      (before ++ .opening b :: rest) 0 = none := by
    rw [Option.eq_none_iff_forall_ne_some]
    rintro ⟨i, j⟩ hr
    obtain ⟨before', inner, tail, hts, hb', hc, -⟩ := (Scope.range?_eq_some_iff b _ _ _).1 hr
    rw [List.append_assoc, Token.enclose_append] at hts
    obtain ⟨-, hrest⟩ := append_cons_inj hts hb hb'
    exact h ⟨inner, tail, hrest, hc⟩
  have hfirst := Scope.firstOf?_append_cons (.mark (.opening b)) before rest (.opening b)
    (fun a ha => mt (Token.kind_eq_mark_iff a _).1 (hb a ha)) rfl
  unfold bracketed
  rw [hrange, hfirst]
  dsimp only [Option.getD_some]
  rw [List.take_left]

end Expr

end ModelScript
