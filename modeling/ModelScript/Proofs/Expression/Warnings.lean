import Mathlib.Data.List.Permutation
import ModelScript.Proofs.Expression.Acceptance

/-!
# Warnings of complete expressions

How often the reader warns about tokens that it leaves nothing out of.  Between the brackets of a
list, line breaks alone count as one element, which cannot be read: the list is empty as the grammar
has it, and a warning is logged all the same.  `Token.blankLists` counts these lists.

    Derives (unbroken ts) e →
      (Expr.read file depth line ts).Warns (blankLists ts)     (warns_of_derives)

The induction is on the derivation.  As many warnings as there are such lists therefore say nothing,
and any other number of them says that something is missing.
-/

namespace ModelScript

open Token (Blank Trimmed unbroken enclose)
open Scope (Balanced)
open Logged (yields_bind yields_pure)

/-! ## Lists of line breaks -/

namespace Token

/-- Whether the token opens a list, and line breaks, one at least, are all that stands in front of
its close. -/
def opensBlank (t : Token) (rest : List Token) : Bool :=
  [Bracket.round, .square].any fun b =>
    t = opening b && rest.head? = some newline && significant? rest = some (closing b)

/-- The number of lists that hold line breaks and nothing else. -/
def blankLists : List Token → Nat
  | [] => 0
  | t :: rest => (opensBlank t rest).toNat + blankLists rest

theorem blankLists_cons_of_ne {t : Token} (h : ∀ b, t ≠ opening b) (rest : List Token) :
    blankLists (t :: rest) = blankLists rest := by
  simp [blankLists, opensBlank, h]

theorem Blank.blankLists_append {as : List Token} (h : Blank as) (rest : List Token) :
    blankLists (as ++ rest) = blankLists rest := by
  induction as with
  | nil => rfl
  | cons a as ih =>
    obtain ⟨rfl, has⟩ := (blank_cons _ _).1 h
    rw [List.cons_append, blankLists_cons_of_ne (by simp), ih has]

theorem Blank.blankLists_eq {as : List Token} (h : Blank as) : blankLists as = 0 := by
  have := h.blankLists_append []
  rwa [List.append_nil] at this

/-- Whether a list is blank is settled at its close. -/
theorem opensBlank_append (t : Token) (ts : List Token) {u : Token} (hu : u ≠ newline)
    (rest : List Token) : opensBlank t (ts ++ u :: rest) = opensBlank t (ts ++ [u]) := by
  have hhead : (ts ++ u :: rest).head? = (ts ++ [u]).head? := by cases ts <;> rfl
  have hsig : significant? (ts ++ u :: rest) = significant? (ts ++ [u]) := by
    have h := (isNewline_eq_false_iff u).2 hu
    simp [significant?, List.find?_append, h]
  unfold opensBlank
  rw [hhead, hsig]

end Token

open Token (blankLists opensBlank)

/-- Lists are counted on both sides of a place where no bracket is open. -/
theorem Scope.Balanced.blankLists_append {commas : Bool} {ts : List Token}
    (h : Balanced commas ts) (rest : List Token) :
    blankLists (ts ++ rest) = blankLists ts + blankLists rest := by
  induction h generalizing rest with
  | nil => simp [blankLists]
  | token commas ho _ _ =>
    rw [List.singleton_append, Token.blankLists_cons_of_ne ho, Token.blankLists_cons_of_ne ho]
    simp [blankLists]
  | append _ _ ih ih' => rw [List.append_assoc, ih, ih, ih', Nat.add_assoc]
  | @scope _ b ts _ _ ih =>
    have hclose (rest : List Token) : blankLists (.closing b :: rest) = blankLists rest :=
      Token.blankLists_cons_of_ne (by simp) rest
    rw [Token.enclose_append, enclose, List.cons_append, blankLists, blankLists,
      Token.opensBlank_append _ _ (by simp), ih, ih, hclose, hclose]
    simp [blankLists]
    omega

/-- A close is the first of balanced tokens and what follows only if they are blank. -/
theorem Scope.Balanced.blank_of_significant? {commas : Bool} {ts : List Token} {b : Bracket}
    (h : Balanced commas ts) {rest : List Token}
    (hs : Token.significant? (ts ++ rest) = some (.closing b)) : Blank ts := by
  induction h generalizing rest with
  | nil => exact .nil
  | @token _ t _ hc _ =>
    by_cases ht : t = .newline
    · exact fun a ha => (List.mem_singleton.1 ha).trans ht
    · have h := (Token.isNewline_eq_false_iff t).2 ht
      simp [Token.significant?, h] at hs
      exact absurd hs (hc b)
  | append _ _ ih ih' =>
    rw [List.append_assoc] at hs
    have hleft := ih hs
    rw [hleft.significant?_append] at hs
    have hright := ih' hs
    exact fun t ht => (List.mem_append.1 ht).elim (hleft t) (hright t)
  | scope _ _ _ _ => simp [enclose, Token.significant?, Token.isNewline] at hs

theorem Scope.Balanced.blankLists_enclose {commas : Bool} {ts : List Token}
    (h : Balanced commas ts) (hne : ¬ Blank ts) (b : Bracket) :
    blankLists (enclose b ts) = blankLists ts := by
  have hopens : opensBlank (.opening b) (ts ++ [.closing b]) = false := by
    rw [Bool.eq_false_iff]
    intro ho
    obtain ⟨b', -, hb'⟩ := List.any_eq_true.1 ho
    simp only [Bool.and_eq_true, decide_eq_true_eq] at hb'
    exact hne (h.blank_of_significant? hb'.2)
  rw [enclose, List.cons_append, blankLists, hopens, h.blankLists_append]
  simp [blankLists, opensBlank]

theorem Token.Blank.blankLists_enclose {ts : List Token} (h : Blank ts) (hne : ts ≠ [])
    {b : Bracket} (hb : b ≠ .curly) : blankLists (enclose b ts) = 1 := by
  obtain ⟨t, rest, rfl⟩ := List.exists_cons_of_ne_nil hne
  obtain ⟨rfl, hrest⟩ := (Token.blank_cons _ _).1 h
  have hsig : Token.significant? (.newline :: (rest ++ [.closing b])) = some (.closing b) :=
    Construct.significant?_blank_append h (by simp) []
  rw [enclose, List.cons_append, List.cons_append, blankLists,
    Token.blankLists_cons_of_ne (t := .newline) (by simp), hrest.blankLists_append,
    Token.blankLists_cons_of_ne (by simp)]
  cases b with
  | curly => exact absurd rfl hb
  | round => simp [opensBlank, hsig, blankLists]
  | square => simp [opensBlank, hsig, blankLists]

/-! ## Numbers of warnings -/

/-- The reading has a result and `n` warnings, unless it is too deep. -/
def Reading.Warns {α : Type} (n : Nat) (x : Reading α) : Prop :=
  x.outcome = .error .tooDeep ∨ ∃ a, x.Yields n a

namespace Reading.Warns

variable {α β : Type} {m n : Nat}

theorem pure (a : α) : Warns 0 (Pure.pure a : Reading α) :=
  Or.inr ⟨a, (yields_pure _ _ _).2 ⟨rfl, rfl⟩⟩

/-- The warnings of two readings one after the other add up, whatever the first results in. -/
theorem bind {x : Reading α} {f : α → Reading β} (h : Warns m x) (hf : ∀ a, Warns n (f a)) :
    Warns (m + n) (x >>= f) := by
  rcases h with h | ⟨a, ha⟩
  · obtain ⟨events, outcome⟩ := x
    cases h
    exact Or.inl rfl
  · rcases hf a with h | ⟨b, hb⟩
    · obtain ⟨ho, -⟩ := ha
      obtain ⟨events, outcome⟩ := x
      cases ho
      exact Or.inl h
    · exact Or.inr ⟨b, ha.bind hb⟩

theorem bind_pure {x : Reading α} (h : Warns n x) (f : α → β) :
    Warns n (x >>= fun a => Pure.pure (f a)) :=
  h.bind fun a => pure (f a)

/-- A reading with as many warnings, for all that it finishes. -/
theorem of_carries {R : Nat → Nat → Prop} {A : α → β → Prop} {x : Reading α} {y : Reading β}
    {b : β} (h : Carries R A x y) (hy : y.Yields n b) : Warns n x :=
  (h.tooDeep_or_yields hy).imp_right fun ⟨a, ha, _⟩ => ⟨a, ha⟩

/-- What has a result has this number of warnings. -/
theorem eq_of_yields {x : Reading α} {a : α} (h : Warns m x) (hx : x.Yields n a) : n = m := by
  rcases h with h | ⟨b, hb⟩
  · rw [hx.1] at h
    cases h
  · exact (hx.unique hb).2

end Reading.Warns

/-- The reader makes something of the tokens in every line, with `n` warnings. -/
def ExprReader.Warns (read : ExprReader) (n : Nat) (ts : List Token) : Prop :=
  ∀ line, (read line ts).Warns n

namespace Expr

variable {file : String} {read : ExprReader} {m n : Nat}

open Reading (Warns)

/-! ## One step -/

theorem atom_warns {t : Token} {kind : Atom} {text : String} (h : t.atom? = some (kind, text))
    (hk : kind ≠ .string) : (readStep file read).Warns 0 [t] := by
  intro line
  have haccepts : Accepts (readStep file read) [t] (.atom kind text) := accepts_atom h hk
  obtain ⟨reached, hy⟩ := haccepts line
  exact Or.inr ⟨_, hy⟩

theorem string_warns {raw : String} (h : ∀ line, (readString file read line raw).Warns n) :
    (readStep file read).Warns n [.string raw] := by
  intro line
  rw [readStep_string]
  exact (h line).bind_pure fun e => (e, line)

theorem grouped_warns {inner : List Token} (hc : Scope.Closes .round inner) (hi : ¬ Blank inner)
    (h : read.Warns n inner) : (readStep file read).Warns n (enclose .round inner) := by
  intro line
  have heq := readGrouped_eq file read line hc []
  rw [← Construct.significant?_eq_none_iff, ← Option.isNone_iff_eq_none] at hi
  rw [if_neg hi, List.append_nil, orOperation_nil] at heq
  have htr : Trimmed (enclose .round inner) := trimmed_append_enclose .round [] inner (by simp)
  rw [readStep_of_trimmed htr rfl, readConstruct, heq]
  exact (h line).bind_pure fun p => (Expr.grouped p.1, p.2)

theorem access_warns (name : String) {breaks inner : List Token} (hb : Blank breaks)
    (hc : Scope.Closes .square inner) (hi : ¬ Blank inner) (h : read.Warns n (Token.trim inner)) :
    (readStep file read).Warns n (.ident name :: breaks ++ enclose .square inner) := by
  intro line
  have heq := readAccess_eq file read line name hb hc []
  have hne : ¬ (Token.trim inner).isEmpty = true := by
    rw [← Token.unbroken_eq_nil_iff, ← Token.unbroken_trim] at hi
    exact fun he => hi (by rw [List.isEmpty_iff.1 he]; rfl)
  have hof := Construct.of?_ident_opening name hb .square (inner ++ [.closing .square])
  rw [List.append_nil, orOperation_nil] at heq
  dsimp only at heq
  rw [if_neg hne] at heq
  rw [readStep_of_trimmed (trimmed_append_enclose .square _ inner (by simp)) hof]
  show (readAccess file read name line _).Warns n
  rw [heq]
  exact (h _).bind_pure fun p => (Expr.access name p.1, max line p.2)

theorem prefixed_warns {t : Token} {op : String} {ts : List Token} (ht : t.Prefixes op)
    (htr : Trimmed (t :: ts)) (hne : ts ≠ []) (h : read.Warns n ts) :
    (readStep file read).Warns n (t :: ts) := by
  intro line
  obtain ⟨t', rest, rfl⟩ := List.exists_cons_of_ne_nil hne
  have hp := (Token.prefixOf?_eq_some_iff t op).2 ht
  have hof : Construct.of? (t :: t' :: rest) = some (.prefixed op) := by
    rw [← Construct.prefixOf?_cons t (t' :: rest)] at hp
    unfold Construct.of?
    rw [hp]
  rw [readStep_of_trimmed htr hof]
  exact (h line).bind_pure fun p => (Expr.prefixed op p.1, p.2)

theorem operation_warns {head breaks right : List Token} (op : String) (hw : Whole head)
    (hb : Blank breaks) (ht : Trimmed (head ++ (breaks ++ .operator op :: right)))
    (hne : right ≠ []) (h : read.Warns m head) (h' : read.Warns n right) :
    (readStep file read).Warns (m + n) (head ++ (breaks ++ .operator op :: right)) := by
  intro line
  have hsig : Token.significant? (breaks ++ .operator op :: right) = some (.operator op) :=
    Construct.significant?_blank_append hb (by simp) right
  obtain ⟨k, hk, hsome⟩ := exists_readStep_eq file read line hw ht (by simp [hsig])
  have hs := (split?_eq_some_iff head (breaks ++ .operator op :: right)
    ⟨head, op, right, Token.newlines head + breaks.length⟩).2
    ⟨breaks, hb, rfl, hne, hw.trimmed.trimEnd_eq.symm, rfl⟩
  rw [hk]
  unfold operation?
  rw [hs, bind_assoc]
  refine (h line).bind fun p => ?_
  rw [bind_assoc]
  refine Warns.bind (n := 0) (h' _) fun q => ?_
  rw [pure_bind, hsome]
  exact .pure _

/-! ## Lists -/

/-- The reader makes a list of the tokens between its brackets, with `n` warnings. -/
def ListWarns (file : String) (read : ExprReader) (b : Bracket) (n : Nat) (ts : List Token) :
    Prop :=
  ∀ (before : List Token) (line : Nat) (tail : List Token), (∀ a ∈ before, a ≠ .opening b) →
    Scope.Closes b ts → (readList file read (.mark (.opening b)) (.mark (.closing b)) line
      (before ++ enclose b ts ++ tail)).Warns n

theorem list_warns_nil (b : Bracket) : ListWarns file read b 0 [] := by
  intro before line tail hb hc
  rw [readList_eq hb hc, if_pos rfl]
  exact .pure _

theorem list_warns_one {b : Bracket} {ts : List Token} (hne : ts ≠ [])
    (hs : Scope.segments 0 ts = [ts]) (h : ∀ line, (onlyElement read line ts).Warns n) :
    ListWarns file read b n ts := by
  intro before line tail hb hc
  rw [readList_eq hb hc, if_neg hne, hs]
  exact h _

theorem list_warns_many {b : Bracket} {ts : List Token} (hs : 2 ≤ (Scope.segments 0 ts).length)
    (h : ∀ line, (elements read line (Scope.segments 0 ts)).Warns n) :
    ListWarns file read b n ts := by
  intro before line tail hb hc
  have hne : ts ≠ [] := by
    rintro rfl
    simp [Scope.segments] at hs
  rw [readList_eq hb hc, if_neg hne]
  split
  · next heq =>
    rw [heq] at hs
    simp at hs
  · exact h _

theorem onlyElement_warns {ts : List Token} (h : read.Warns n ts) (line : Nat) :
    (onlyElement read line ts).Warns n := by
  unfold onlyElement
  dsimp only
  rcases h line with h | ⟨⟨e, reached⟩, ho, hn⟩
  · rw [h]
    exact Or.inl rfl
  · rw [ho]
    exact Or.inr ⟨_, rfl, hn⟩

theorem read_of_blank (file : String) (depth line : Nat) {ts : List Token} (h : Blank ts) :
    Expr.read file (depth + 1) line ts
      = Reading.fault file (line + Token.leadingNewlines ts) (.noExpression none) := by
  show readStep file _ line ts = _
  unfold readStep
  dsimp only
  rw [h.trimStart_eq]
  rfl

/-- Line breaks are no element, and leaving them out is one warning. -/
theorem onlyElement_warns_of_blank (file : String) (depth line : Nat) {ts : List Token}
    (h : Blank ts) : (onlyElement (Expr.read file depth) line ts).Warns 1 := by
  cases depth with
  | zero => exact Or.inl rfl
  | succ depth =>
    unfold onlyElement
    rw [read_of_blank file depth line h]
    exact Or.inr ⟨[], rfl, rfl⟩

theorem elements_warns_cons {ts : List Token} {segments : List (List Token)}
    (h : read.Warns m ts) (h' : ∀ line, (elements read line segments).Warns n) (line : Nat) :
    (elements read line (ts :: segments)).Warns (m + n) := by
  unfold elements
  exact (h line).bind fun p => (h' _).bind_pure fun es => p.1 :: es

theorem listing_warns {b : Bracket} {build : List Expr → Expr} (before : List Token)
    {inner : List Token} {c : Construct} (hh : before.head? ≠ some .newline)
    (hb : ∀ a ∈ before, a ≠ .opening b) (hc : Scope.Closes b inner)
    (hof : Construct.of? (before ++ enclose b inner) = some c)
    (hread : ∀ line ts, readConstruct file read line ts c = readListing file read b build line ts)
    (h : ListWarns file read b n inner) :
    (readStep file read).Warns n (before ++ enclose b inner) := by
  intro line
  have heq := readListing_eq file read line build before hb hc []
  have hlist := h before line [] hb hc
  rw [List.append_nil] at heq hlist
  rw [orOperation_nil] at heq
  rw [readStep_of_trimmed (trimmed_append_enclose b before inner hh) hof, hread, heq]
  exact hlist.bind_pure fun es => (build es, line)

end Expr

/-! ## Tokens with their line breaks -/

theorem Token.blankLists_trim {commas : Bool} {ts : List Token}
    (h : Balanced commas (Token.trim ts)) : blankLists (Token.trim ts) = blankLists ts := by
  obtain ⟨as, bs, ha, hbs, he, -⟩ := Token.exists_eq_trim ts
  conv => rhs; rw [he]
  rw [List.append_assoc, ha.blankLists_append, h.blankLists_append, hbs.blankLists_eq,
    Nat.add_zero]

/-- Tokens that derive something without their line breaks are balanced with them. -/
theorem Derives.balanced_of_unbroken {ts us : List Token} {e : Expr} (h : Derives us e)
    (hu : unbroken ts = us) : Balanced false ts :=
  .of_unbroken (hu ▸ h.balanced)

theorem DerivesList.balanced_of_unbroken {ts us : List Token} {es : List Expr}
    (h : DerivesList us es) (hu : unbroken ts = us) : Balanced true ts :=
  .of_unbroken (hu ▸ h.balanced)

theorem Derives.not_blank_of_unbroken {ts us : List Token} {e : Expr} (h : Derives us e)
    (hu : unbroken ts = us) : ¬ Blank ts :=
  fun hb => h.ne_nil (hu ▸ hb.unbroken_eq)

/-- What can be a left operand is one whole construct, line breaks included. -/
theorem Derives.whole_of_unbroken {ts us : List Token} {e : Expr} (h : Derives us e)
    (ho : e.isOperand = true) (ht : Trimmed ts) (hu : unbroken ts = us) : Whole ts := by
  cases h with
  | atom h hk =>
    rw [ht.eq_singleton_of_unbroken hu]
    exact .atom h
  | @string raw _ h =>
    rw [ht.eq_singleton_of_unbroken hu]
    exact .atom (rfl : Token.atom? (.string raw) = some (.string, raw))
  | grouped h =>
    obtain ⟨inner, rfl, hinner⟩ := ht.eq_enclose_of_unbroken hu
    exact .grouped ((h.balanced_of_unbroken hinner).closes .round) (h.not_blank_of_unbroken hinner)
  | list h =>
    obtain ⟨inner, rfl, rfl⟩ := ht.eq_enclose_of_unbroken hu
    exact .list (h.balanced.of_unbroken.closes .square)
  | call name h =>
    obtain ⟨breaks, inner, hb, rfl, rfl⟩ := ht.eq_ident_enclose_of_unbroken hu
    exact .call name hb (h.balanced.of_unbroken.closes .round)
  | access name h =>
    obtain ⟨breaks, inner, hb, rfl, rfl⟩ := ht.eq_ident_enclose_of_unbroken hu
    exact .access name hb (h.balanced.of_unbroken.closes .square)
  | prefixed ht h => cases ho
  | operation op ho' h h' => cases ho

/-! ## Derivations -/

namespace Expr

open Reading (Warns)

/-- A string literal is read without a warning wherever it is read at all. -/
theorem readString_warns {raw : String} {e : Expr} (h : ReadsString raw e) (file : String)
    (depth line : Nat) : (readString file (Expr.read file depth) line raw).Warns 0 := by
  obtain ⟨d, hd⟩ := exists_readString h
  have hr : (Expr.read file depth).Carries (fun _ _ => True) (Expr.read file (max depth d)) :=
    read_carries Renumbering.any file file (Nat.le_max_left depth d)
  have hs : Reading.Carries (fun _ _ => True) Eq (readString file (Expr.read file depth) line raw)
      (readString file (Expr.read file (max depth d)) line raw) :=
    readString_carries Renumbering.any hr trivial file file raw
  exact .of_carries hs (hd file _ line (Nat.le_max_right depth d))

/-- It is enough to look at tokens without line breaks around them, one level deep. -/
theorem warns_of_trimmed {us : List Token} (hb : Balanced false us)
    (h : ∀ {ts}, Trimmed ts → unbroken ts = us → ∀ file depth,
      (readStep file (Expr.read file depth)).Warns (blankLists ts) ts)
    {ts : List Token} (hu : unbroken ts = us) (file : String) (depth : Nat) :
    (Expr.read file depth).Warns (blankLists ts) ts := by
  intro line
  obtain ⟨-, -, -, -, -, ht⟩ := Token.exists_eq_trim ts
  have hu := (Token.unbroken_trim ts).trans hu
  have hbal : Balanced false (Token.trim ts) := .of_unbroken (hu ▸ hb)
  cases depth with
  | zero => exact Or.inl rfl
  | succ depth =>
    show (readStep file (Expr.read file depth) line ts).Warns _
    rw [readStep_trim, ← Token.blankLists_trim hbal]
    exact h ht hu file depth _

mutual

/-- Tokens that derive an expression without their line breaks are read with a warning for every
list of line breaks. -/
theorem warns_of_derives {us : List Token} {e : Expr} : Derives us e →
    ∀ {ts}, unbroken ts = us → ∀ file depth, (Expr.read file depth).Warns (blankLists ts) ts
  | .atom h hk => warns_of_trimmed (Derives.atom h hk).balanced fun ht hu file depth => by
    rw [ht.eq_singleton_of_unbroken hu,
      Token.blankLists_cons_of_ne fun b => Token.ne_mark_of_atom? h (.opening b)]
    exact atom_warns h hk
  | .string h => warns_of_trimmed (Derives.string h).balanced fun ht hu file depth => by
    rw [ht.eq_singleton_of_unbroken hu, Token.blankLists_cons_of_ne (by simp)]
    exact string_warns (readString_warns h file depth)
  | .grouped h => warns_of_trimmed (Derives.grouped h).balanced fun ht hu file depth => by
    obtain ⟨inner, rfl, hinner⟩ := ht.eq_enclose_of_unbroken hu
    have hb := h.balanced_of_unbroken hinner
    have hne := h.not_blank_of_unbroken hinner
    rw [hb.blankLists_enclose hne]
    exact grouped_warns (hb.closes .round) hne (warns_of_derives h hinner file depth)
  | .list h => warns_of_trimmed (Derives.list h).balanced fun ht hu file depth => by
    obtain ⟨inner, rfl, hinner⟩ := ht.eq_enclose_of_unbroken hu
    have hc := (h.balanced_of_unbroken hinner).closes .square
    exact listing_warns [] (by simp) (by simp) hc rfl (fun _ _ => rfl)
      ((list_warns_of_derives h inner hinner file depth).1 .square (by simp))
  | .call name h => warns_of_trimmed (Derives.call name h).balanced fun ht hu file depth => by
    obtain ⟨breaks, inner, hb, rfl, hinner⟩ := ht.eq_ident_enclose_of_unbroken hu
    have hc := (h.balanced_of_unbroken hinner).closes .round
    rw [List.cons_append, Token.blankLists_cons_of_ne (by simp), hb.blankLists_append]
    exact listing_warns (.ident name :: breaks) (by simp) (hb.ident_ne_opening name .round) hc
      (Construct.of?_ident_opening name hb .round _) (fun _ _ => rfl)
      ((list_warns_of_derives h inner hinner file depth).1 .round (by simp))
  | .access name h => warns_of_trimmed (Derives.access name h).balanced fun ht hu file depth => by
    obtain ⟨breaks, inner, hb, rfl, hinner⟩ := ht.eq_ident_enclose_of_unbroken hu
    have hbal := h.balanced_of_unbroken hinner
    have hne := h.not_blank_of_unbroken hinner
    have htrim := (Token.unbroken_trim inner).trans hinner
    rw [List.cons_append, Token.blankLists_cons_of_ne (by simp), hb.blankLists_append,
      hbal.blankLists_enclose hne, ← Token.blankLists_trim (h.balanced_of_unbroken htrim)]
    exact access_warns name hb (hbal.closes .square) hne (warns_of_derives h htrim file depth)
  | .prefixed hp h => warns_of_trimmed (Derives.prefixed hp h).balanced fun ht hu file depth => by
    obtain ⟨rest, rfl, hrest⟩ := ht.exists_cons_of_unbroken hu
    have hne : rest ≠ [] := by
      rintro rfl
      exact h.ne_nil hrest.symm
    rw [Token.blankLists_cons_of_ne fun b => hp.ne_mark (.opening b)]
    exact prefixed_warns hp ht hne (warns_of_derives h hrest file depth)
  | .operation op ho h h' => warns_of_trimmed (Derives.operation op ho h h').balanced
    fun ht hu file depth => by
    obtain ⟨as, right, rfl, hl, hr⟩ := Token.exists_append_cons_of_unbroken hu
    obtain ⟨bs, hbs, has, -⟩ := Token.exists_eq_trimEnd as
    have hhead := (Token.unbroken_trimEnd as).trans hl
    have hw := h.whole_of_unbroken ho ht.trimEnd hhead
    have hne : right ≠ [] := by
      rintro rfl
      exact h'.ne_nil hr.symm
    rw [has, List.append_assoc] at ht ⊢
    rw [(h.balanced_of_unbroken hhead).blankLists_append, hbs.blankLists_append,
      Token.blankLists_cons_of_ne (by simp)]
    exact operation_warns op hw hbs ht hne (warns_of_derives h hhead file depth)
      (warns_of_derives h' hr file depth)

/-- The same for lists, whose own brackets are counted too; and for their elements, one by one. -/
theorem list_warns_of_derives {us : List Token} {es : List Expr} : DerivesList us es →
    ∀ ts, unbroken ts = us → ∀ file depth,
      (∀ b, b ≠ .curly → ListWarns file (Expr.read file depth) b (blankLists (enclose b ts)) ts) ∧
        (es ≠ [] → ∀ line,
          (elements (Expr.read file depth) line (Scope.segments 0 ts)).Warns (blankLists ts))
  | .empty => fun ts hu file depth => by
    have hblank := (Token.unbroken_eq_nil_iff ts).1 hu
    refine ⟨fun b hb => ?_, fun hne => absurd rfl hne⟩
    by_cases hts : ts = []
    · subst hts
      cases b <;> exact list_warns_nil _
    · rw [hblank.blankLists_enclose hts hb]
      exact list_warns_one hts (Balanced.of_blank false hblank).segments_eq fun line =>
        onlyElement_warns_of_blank file depth line hblank
  | .last h => fun ts hu file depth => by
    have hbal := h.balanced_of_unbroken hu
    have hne := h.not_blank_of_unbroken hu
    have hread := warns_of_derives h hu file depth
    rw [hbal.segments_eq]
    refine ⟨fun b _ => ?_, fun _ => elements_warns_cons (n := 0) hread fun _ => .pure []⟩
    rw [hbal.blankLists_enclose hne]
    exact list_warns_one (fun hts => hne (hts ▸ .nil)) hbal.segments_eq (onlyElement_warns hread)
  | .cons h h' => fun ts hu file depth => by
    obtain ⟨as, rest, rfl, has, hrest⟩ := Token.exists_append_cons_of_unbroken hu
    have hbal := h.balanced_of_unbroken has
    have helements := elements_warns_cons (warns_of_derives h has file depth)
      ((list_warns_of_derives h' rest hrest file depth).2 (by simp))
    have hcount : blankLists (as ++ .mark .comma :: rest) = blankLists as + blankLists rest := by
      rw [hbal.blankLists_append, Token.blankLists_cons_of_ne (by simp)]
    rw [hbal.segments_comma, hcount]
    refine ⟨fun b _ => ?_, fun _ => helements⟩
    have hblank : ¬ Blank (as ++ .mark .comma :: rest) := fun hb =>
      absurd (hb (.mark .comma) (by simp)) (by simp)
    have hlist := (DerivesList.cons h h').balanced_of_unbroken hu
    have hlen := List.length_pos_iff.2 (Scope.segments_ne_nil 0 rest)
    rw [hlist.blankLists_enclose hblank, hcount]
    refine list_warns_many ?_ ?_
    · rw [hbal.segments_comma, List.length_cons]
      omega
    · rw [hbal.segments_comma]
      exact helements

end

end Expr

end ModelScript
