import ModelScript.Proofs.Expression.Shape
import ModelScript.Proofs.Reading.Yields

/-!
# One reading step

What a successful step of the expression reader has read, over any reader for the expressions
inside: the tokens are one of the forms of `Step`, line breaks around them apart
(`exists_step_of_readStep`).  Every statement about what the reader accepts follows from this one by
induction on the depth.  The other way round, the equations say what a step makes of each form.
-/

namespace ModelScript

open Token (Blank Trimmed enclose)
open Logged (yields_bind yields_pure yields_pure_pair)

/-- The reader makes `e` of the tokens in some line, with `n` warnings. -/
def ExprReader.Gives (read : ExprReader) (n : Nat) (ts : List Token) (e : Expr) : Prop :=
  ∃ line reached, (read line ts).Yields n (e, reached)

/-- The tokens are the only element of a list, and the reader refuses them, after `n` warnings about
what is inside. -/
structure ExprReader.Drops (read : ExprReader) (n : Nat) (ts : List Token) : Prop where
  ne_nil : ts ≠ []
  alone : Scope.segments 0 ts = [ts]
  refused : ∃ line f, (read line ts).outcome = .error (.fault f) ∧
    (read line ts).warnings.length = n

namespace Expr

/-- Neither an operation nor a prefix with its operand, so an operator can follow. -/
def isOperand : Expr → Bool
  | operation .. | prefixed .. => false
  | _ => true

variable (file : String) (read : ExprReader)

/-- Expressions between commas. -/
inductive Elements : Nat → List Token → List Expr → Prop
  | last {n : Nat} {ts : List Token} {e : Expr} (h : read.Gives n ts e) : Elements n ts [e]
  | cons {m n : Nat} {ts rest : List Token} {e : Expr} {es : List Expr} (h : read.Gives m ts e)
    (h' : Elements n rest es) : Elements (m + n) (ts ++ .mark .comma :: rest) (e :: es)

/-- What stands between the brackets of a list, and what it is read as. -/
inductive Listed : Nat → List Token → List Expr → Prop
  | empty : Listed 0 [] []
  /-- The only element is left out with a warning of its own. -/
  | dropped {n : Nat} {ts : List Token} (h : read.Drops n ts) : Listed (n + 1) ts []
  | elements {n : Nat} {ts : List Token} {es : List Expr} (h : Elements read n ts es) :
    Listed n ts es

/-- What one construct is read as, by the reader for the expressions inside. -/
inductive Alone : Nat → List Token → Expr → Prop
  | atom {t : Token} {kind : Atom} {text : String} (h : t.atom? = some (kind, text))
    (hk : kind ≠ .string) : Alone 0 [t] (.atom kind text)
  | string {n line : Nat} {raw : String} {e : Expr}
    (h : (readString file read line raw).Yields n e) : Alone n [.string raw] e
  | grouped {n : Nat} {inner : List Token} {e : Expr} (h : read.Gives n inner e) :
    Alone n (enclose .round inner) (.grouped e)
  | list {n : Nat} {inner : List Token} {es : List Expr} (hc : Scope.Closes .square inner)
    (h : Listed read n inner es) : Alone n (enclose .square inner) (.list es)
  | call {n : Nat} (name : String) {breaks inner : List Token} {es : List Expr}
    (hb : Blank breaks) (hc : Scope.Closes .round inner) (h : Listed read n inner es) :
    Alone n (.ident name :: breaks ++ enclose .round inner) (.call name es)
  | access {n : Nat} (name : String) {breaks as index bs : List Token} {e : Expr}
    (hb : Blank breaks) (ha : Blank as) (hbs : Blank bs) (h : read.Gives n index e) :
    Alone n (.ident name :: breaks ++ enclose .square (as ++ index ++ bs)) (.access name e)

/-- What one step reads: a construct, a prefix with all the rest, or an operation. -/
inductive Step : Nat → List Token → Expr → Prop
  | alone {n : Nat} {ts : List Token} {e : Expr} (h : Alone file read n ts e) : Step n ts e
  | prefixed {n : Nat} {t : Token} {op : String} {ts : List Token} {e : Expr}
    (ht : Construct.prefixOf? [t] = some op) (h : read.Gives n ts e) :
    Step n (t :: ts) (.prefixed op e)
  | operation {m n : Nat} {head breaks right : List Token} (op : String) {el er : Expr}
    (hw : Whole head) (hb : Blank breaks) (h : read.Gives m head el)
    (h' : read.Gives n right er) :
    Step (m + n) (head ++ breaks ++ .operator op :: right) (.operation el op er)

variable {file read}

/-! ## Strings and lists -/

/-- A string literal is an atom or a template, and both can be operands. -/
theorem isOperand_of_readString {line n : Nat} {raw : String} {e : Expr}
    (h : (readString file read line raw).Yields n e) : e.isOperand = true := by
  unfold readString at h
  split at h
  · obtain ⟨-, rfl⟩ := (yields_pure _ _ _).1 h
    rfl
  · obtain ⟨es, -, rfl⟩ := (Logged.yields_map _ _ _ _).1 h
    rfl

theorem Alone.isOperand {n : Nat} {ts : List Token} {e : Expr} (h : Alone file read n ts e) :
    e.isOperand = true := by
  cases h with
  | string h => exact isOperand_of_readString h
  | atom h hk => rfl
  | grouped h => rfl
  | list hc h => rfl
  | call name hb hc h => rfl
  | access name hb ha hbs h => rfl

theorem elements_of_yields {line n : Nat} {segments : List (List Token)} {es : List Expr}
    (hne : segments ≠ []) (h : (elements read line segments).Yields n es) :
    Elements read n (List.intercalate [.mark .comma] segments) es := by
  induction segments generalizing line n es with
  | nil => exact absurd rfl hne
  | cons ts rest ih =>
    unfold elements at h
    obtain ⟨m, k, ⟨e, reached⟩, he, h1, rfl⟩ := (yields_bind _ _ _ _).1 h
    obtain ⟨k, j, es, hes, h2, rfl⟩ := (yields_bind _ _ _ _).1 h1
    obtain ⟨rfl, rfl⟩ := (yields_pure _ _ _).1 h2
    cases rest with
    | nil =>
      obtain ⟨rfl, rfl⟩ := (yields_pure _ _ _).1 hes
      simpa [List.intercalate] using Elements.last ⟨line, reached, he⟩
    | cons ts' rest =>
      have := Elements.cons ⟨line, reached, he⟩ (ih (by simp) hes)
      simpa [List.intercalate] using this

theorem listed_of_onlyElement {line n : Nat} {ts : List Token} {es : List Expr} (hne : ts ≠ [])
    (hs : Scope.segments 0 ts = [ts]) (h : (onlyElement read line ts).Yields n es) :
    Listed read n ts es := by
  unfold onlyElement at h
  obtain ⟨ho, rfl⟩ := h
  dsimp only at ho ⊢
  split at ho
  · next e reached hx =>
    cases ho
    exact .elements (.last ⟨line, reached, hx, rfl⟩)
  · next f hx =>
    cases ho
    simp only [Logged.warnings, List.filter_append, List.length_append]
    exact .dropped ⟨hne, hs, line, f, hx, rfl⟩
  · cases ho

/-- Reading the list in the first brackets, told by the pieces of the tokens. -/
theorem readList_eq {line : Nat} {b : Bracket} {before inner : List Token}
    (hb : ∀ a ∈ before, a ≠ .opening b) (hc : Scope.Closes b inner) (tail : List Token) :
    readList file read (.mark (.opening b)) (.mark (.closing b)) line
      (before ++ enclose b inner ++ tail)
      = if inner = [] then pure [] else
        match Scope.segments 0 inner with
        | [_] => onlyElement read (line + Token.newlines (before ++ [.opening b])) inner
        | segments => elements read (line + Token.newlines (before ++ [.opening b])) segments := by
  have hfirst := Scope.firstOf?_append_cons (.mark (.opening b)) before
    (inner ++ .closing b :: tail) (.opening b)
    (fun a ha => mt (Token.kind_eq_mark_iff a _).1 (hb a ha)) rfl
  rw [← Token.enclose_append, ← List.append_assoc] at hfirst
  have hrange := (Scope.range?_eq_some_iff b _ _ _).2 ⟨before, inner, tail, rfl, hb, hc, rfl, rfl⟩
  have htake : (before ++ enclose b inner ++ tail).take (before.length + 1)
      = before ++ [.opening b] := by
    have hshape : before ++ enclose b inner ++ tail
        = (before ++ [.opening b]) ++ (inner ++ .closing b :: tail) := by simp [enclose]
    rw [hshape, List.take_left' (by simp)]
  have hcut := Scope.cut_separatorsFrom [] [] inner 0
  have hid : (Scope.segments 0 inner).modifyHead ([] ++ ·) = Scope.segments 0 inner := by
    cases Scope.segments 0 inner <;> rfl
  rw [hid] at hcut
  have hlen := Scope.length_cut inner 0
    (Scope.separatorsFrom Scope.listScopes (.mark .comma) 0 0 inner)
  unfold readList
  rw [hfirst]
  dsimp only
  rw [hrange]
  dsimp only
  rw [take_drop_enclose, htake]
  by_cases hi : inner = []
  · subst hi
    rfl
  · rw [if_neg hi, if_neg (by simpa using hi), ← hcut]
    cases hs : Scope.separatorsFrom Scope.listScopes (.mark .comma) 0 0 inner with
    | nil => simp [Scope.cut]
    | cons i is =>
      rw [hs] at hlen
      simp only [List.nil_append, List.length_nil]
      split
      · next h =>
        rw [h] at hlen
        simp at hlen
      · rfl

theorem listed_of_readList {line n : Nat} {b : Bracket} {before inner tail : List Token}
    {es : List Expr} (hb : ∀ a ∈ before, a ≠ .opening b) (hc : Scope.Closes b inner)
    (h : (readList file read (.mark (.opening b)) (.mark (.closing b)) line
      (before ++ enclose b inner ++ tail)).Yields n es) :
    Listed read n inner es := by
  rw [readList_eq hb hc] at h
  split at h
  · next hi =>
    obtain ⟨rfl, rfl⟩ := (yields_pure _ _ _).1 h
    rw [hi]
    exact .empty
  · next hi =>
    split at h
    · next ts hts =>
      have hone := Scope.intercalate_segments 0 inner
      rw [hts, List.intercalate_singleton] at hone
      exact listed_of_onlyElement hi (hone ▸ hts) h
    · rw [← Scope.intercalate_segments 0 inner]
      exact .elements (elements_of_yields (Scope.segments_ne_nil 0 inner) h)

/-! ## Operations -/

/-- What follows a construct: nothing that matters, or an operator between two operands. -/
inductive Continued (read : ExprReader) (head : List Token) :
    List Token → Nat → Option Expr → Prop
  | nothing (tail : List Token) : Continued read head tail 0 none
  | operation {m n : Nat} {breaks right : List Token} (op : String) {el er : Expr}
    (hb : Blank breaks) (h : read.Gives m (Token.trimEnd head) el) (h' : read.Gives n right er) :
    Continued read head (breaks ++ .operator op :: right) (m + n) (some (.operation el op er))

theorem continued_of_operation? {line n : Nat} {head tail : List Token} {r : Option (Expr × Nat)}
    (h : (operation? read head.length line (head ++ tail)).Yields n r) :
    Continued read head tail n (r.map (·.1)) := by
  unfold operation? at h
  split at h
  · obtain ⟨rfl, rfl⟩ := (yields_pure _ _ _).1 h
    exact .nothing tail
  · next s hs =>
    obtain ⟨breaks, hb, rfl, -, hl, -⟩ := (split?_eq_some_iff head tail s).1 hs
    obtain ⟨m, k, ⟨el, reached⟩, hel, h1, rfl⟩ := (yields_bind _ _ _ _).1 h
    obtain ⟨k, j, ⟨er, last⟩, her, h2, rfl⟩ := (yields_bind _ _ _ _).1 h1
    obtain ⟨rfl, rfl⟩ := (yields_pure _ _ _).1 h2
    rw [hl] at hel
    exact .operation s.operator hb ⟨line, reached, hel⟩ ⟨_, last, her⟩

/-- A whole construct with a tail is read as an operation, and without one it is read alone. -/
def Parted (file : String) (read : ExprReader) (n : Nat) (head tail : List Token) (e : Expr) :
    Prop :=
  (tail = [] ∧ Alone file read n head e) ∨ (tail ≠ [] ∧ Step file read n (head ++ tail) e)

theorem Parted.step {n : Nat} {head tail : List Token} {e : Expr}
    (h : Parted file read n head tail e) : Step file read n (head ++ tail) e := by
  rcases h with ⟨rfl, h⟩ | ⟨-, h⟩
  · rw [List.append_nil]
    exact .alone h
  · exact h

theorem Parted.alone {n : Nat} {head : List Token} {e : Expr} (h : Parted file read n head [] e) :
    Alone file read n head e := by
  rcases h with ⟨-, h⟩ | ⟨h, -⟩
  · exact h
  · exact absurd rfl h

theorem Continued.parted {n : Nat} {head tail : List Token} {e : Expr} (hw : Whole head)
    (h : Continued read head tail n (some e)) : Parted file read n head tail e := by
  cases h with
  | operation op hb hleft hright =>
    rw [hw.trimmed.trimEnd_eq] at hleft
    refine Or.inr ⟨by simp, ?_⟩
    rw [← List.append_assoc]
    exact .operation op hw hb hleft hright

theorem parted_of_orOperation {line n : Nat} {head tail : List Token} {e : Expr} {reached : Nat}
    {alone : Reading (Expr × Nat)} (hw : Whole head) (ht : Trimmed (head ++ tail))
    (ha : ∀ {n e reached}, alone.Yields n (e, reached) → Alone file read n head e)
    (h : (orOperation file read head.length line (head ++ tail) alone).Yields n (e, reached)) :
    Parted file read n head tail e := by
  unfold orOperation at h
  obtain ⟨m, k, r, hr, h1, rfl⟩ := (yields_bind _ _ _ _).1 h
  have hc := continued_of_operation? hr
  cases r with
  | some p =>
    obtain ⟨rfl, rfl⟩ := (yields_pure _ _ _).1 h1
    exact hc.parted hw
  | none =>
    cases hc
    obtain ⟨i, j, _, hq, h2, rfl⟩ := (yields_bind _ _ _ _).1 h1
    unfold requireEnd at hq
    split at hq
    · next hblank =>
      obtain ⟨rfl, -⟩ := (yields_pure _ _ _).1 hq
      rw [List.drop_left, Token.trimStart_eq_nil_iff] at hblank
      simp only [Nat.zero_add]
      exact Or.inl ⟨ht.eq_nil_of_blank_tail hblank, ha h2⟩
    · exact absurd hq (Logged.not_yields_fault _ _ _ _ _)

/-! ## Constructs -/

/-- Parentheses with something in them are read as a grouped expression, if no operator follows. -/
theorem readGrouped_eq (file : String) (read : ExprReader) (line : Nat) {inner : List Token}
    (hc : Scope.Closes .round inner) (tail : List Token) :
    readGrouped file read line (enclose .round inner ++ tail)
      = if (Token.significant? inner).isNone then Reading.fault file line .emptyParentheses
        else orOperation file read (enclose .round inner).length line
            (enclose .round inner ++ tail) do
          let (e, reached) ← read line inner
          return (.grouped e, reached) := by
  have hbracketed := bracketed_eq file line [] (by simp) hc tail
  have hinner := take_drop_enclose .round [] inner tail
  have hlen := length_append_enclose .round [] inner
  rw [List.nil_append] at hbracketed hinner hlen
  unfold readGrouped
  rw [hbracketed, pure_bind]
  dsimp only
  rw [hinner, ← hlen]

theorem readListing_eq (file : String) (read : ExprReader) (line : Nat) {b : Bracket}
    (build : List Expr → Expr) (before : List Token) {inner : List Token}
    (hb : ∀ a ∈ before, a ≠ .opening b) (hc : Scope.Closes b inner) (tail : List Token) :
    readListing file read b build line (before ++ enclose b inner ++ tail)
      = orOperation file read (before ++ enclose b inner).length line
          (before ++ enclose b inner ++ tail) do
        let es ← readList file read (.mark (.opening b)) (.mark (.closing b)) line
          (before ++ enclose b inner ++ tail)
        return (build es, line) := by
  unfold readListing
  rw [bracketed_eq file line _ hb hc, pure_bind]
  dsimp only
  rw [← length_append_enclose]

/-- The index between square brackets is read without the line breaks around it. -/
theorem readAccess_eq (file : String) (read : ExprReader) (line : Nat) (name : String)
    {breaks inner : List Token} (hb : Blank breaks) (hc : Scope.Closes .square inner)
    (tail : List Token) :
    readAccess file read name line (.ident name :: breaks ++ enclose .square inner ++ tail)
      = orOperation file read (.ident name :: breaks ++ enclose .square inner).length line
          (.ident name :: breaks ++ enclose .square inner ++ tail) do
        let first := line + Token.newlines
          ((.ident name :: breaks ++ enclose .square inner ++ tail).take
            ((Token.ident name :: breaks).length + 1))
        if (Token.trim inner).isEmpty then Reading.fault file first .emptyIndex
        else
          let (e, reached) ← read (first + Token.leadingNewlines inner) (Token.trim inner)
          return (.access name e, max line reached) := by
  unfold readAccess
  rw [bracketed_eq file line _ (hb.ident_ne_opening name .square) hc, pure_bind]
  dsimp only
  rw [take_drop_enclose, ← length_append_enclose]
  rfl

theorem parted_of_readGrouped {line n reached : Nat} {inner tail : List Token} {e : Expr}
    (hc : Scope.Closes .round inner) (ht : Trimmed (enclose .round inner ++ tail))
    (h : (readGrouped file read line (enclose .round inner ++ tail)).Yields n (e, reached)) :
    Parted file read n (enclose .round inner) tail e := by
  rw [readGrouped_eq file read line hc] at h
  split at h
  · exact absurd h (Logged.not_yields_fault _ _ _ _ _)
  · next hi =>
    rw [Option.isNone_iff_eq_none, Construct.significant?_eq_none_iff] at hi
    refine parted_of_orOperation (.grouped hc hi) ht ?_ h
    intro n e reached ha
    obtain ⟨m, k, ⟨e', reached'⟩, he, hp, rfl⟩ := (yields_bind _ _ _ _).1 ha
    obtain ⟨rfl, rfl, rfl⟩ := (yields_pure_pair _ _ _ _ _).1 hp
    exact .grouped ⟨line, _, he⟩

theorem parted_of_readListing {line n reached : Nat} {b : Bracket} (before : List Token)
    {inner tail : List Token} {build : List Expr → Expr} {e : Expr}
    (hb : ∀ a ∈ before, a ≠ .opening b) (hw : Whole (before ++ enclose b inner))
    (hc : Scope.Closes b inner)
    (ha : ∀ {n es}, Listed read n inner es →
      Alone file read n (before ++ enclose b inner) (build es))
    (ht : Trimmed (before ++ enclose b inner ++ tail))
    (h : (readListing file read b build line (before ++ enclose b inner ++ tail)).Yields
      n (e, reached)) :
    Parted file read n (before ++ enclose b inner) tail e := by
  rw [readListing_eq file read line build before hb hc] at h
  refine parted_of_orOperation hw ht ?_ h
  intro n e reached ha'
  obtain ⟨m, k, es, hes, hp, rfl⟩ := (yields_bind _ _ _ _).1 ha'
  obtain ⟨rfl, rfl, rfl⟩ := (yields_pure_pair _ _ _ _ _).1 hp
  exact ha (listed_of_readList hb hc hes)

theorem parted_of_readAccess {line n reached : Nat} {name : String}
    {breaks inner tail : List Token} {e : Expr} (hb : Blank breaks)
    (hc : Scope.Closes .square inner)
    (ht : Trimmed (.ident name :: breaks ++ enclose .square inner ++ tail))
    (h : (readAccess file read name line
      (.ident name :: breaks ++ enclose .square inner ++ tail)).Yields n (e, reached)) :
    Parted file read n (.ident name :: breaks ++ enclose .square inner) tail e := by
  rw [readAccess_eq file read line name hb hc] at h
  refine parted_of_orOperation (.access name hb hc) ht ?_ h
  intro n e reached ha
  dsimp only at ha
  split at ha
  · exact absurd ha (Logged.not_yields_fault _ _ _ _ _)
  · obtain ⟨as, bs, has, hbs, he, -⟩ := Token.exists_eq_trim inner
    obtain ⟨m, k, ⟨e', reached'⟩, hr, hp, rfl⟩ := (yields_bind _ _ _ _).1 ha
    obtain ⟨rfl, rfl, rfl⟩ := (yields_pure_pair _ _ _ _ _).1 hp
    rw [he]
    exact .access name hb has hbs ⟨_, reached', hr⟩

theorem parted_of_readAtom {line n reached : Nat} {t : Token} {kind : Atom} {text : String}
    {tail : List Token} {e : Expr} (ha : t.atom? = some (kind, text))
    (h : (readAtom file read kind text line ([t] ++ tail)).Yields n (e, reached)) :
    Parted file read n [t] tail e := by
  have hw : Whole [t] := .atom ha
  unfold readAtom at h
  obtain ⟨m, k, r, hr, h1, rfl⟩ := (yields_bind _ _ _ _).1 h
  have hc : Continued read [t] tail m (r.map (·.1)) := continued_of_operation? hr
  cases r with
  | some p =>
    obtain ⟨rfl, rfl⟩ := (yields_pure _ _ _).1 h1
    exact hc.parted hw
  | none =>
    cases hc
    dsimp only at h1
    split at h1
    · exact absurd h1 (Logged.not_yields_fault _ _ _ _ _)
    · next hts =>
      have htail : tail = [] := by
        cases tail with
        | nil => rfl
        | cons t' rest => exact absurd rfl (hts t t' rest)
      rw [Nat.zero_add]
      refine Or.inl ⟨htail, ?_⟩
      split at h1
      · obtain ⟨i, j, e', he, hp, rfl⟩ := (yields_bind _ _ _ _).1 h1
        obtain ⟨rfl, rfl, rfl⟩ := (yields_pure_pair _ _ _ _ _).1 hp
        obtain rfl := Token.eq_string_of_atom? ha
        exact .string he
      · next hk =>
        obtain ⟨rfl, rfl, rfl⟩ := (yields_pure_pair _ _ _ _ _).1 h1
        exact .atom ha hk

theorem step_of_readPrefixed {line n reached : Nat} {t : Token} {op : String} {rest : List Token}
    {e : Expr} (ht : Construct.prefixOf? [t] = some op)
    (h : (readPrefixed file read op line (t :: rest)).Yields n (e, reached)) :
    Step file read n (t :: rest) e := by
  cases rest with
  | nil => exact absurd h (Logged.not_yields_fault _ _ _ _ _)
  | cons t' rest =>
    obtain ⟨m, k, ⟨e', reached'⟩, he, hp, rfl⟩ := (yields_bind _ _ _ _).1 h
    obtain ⟨rfl, rfl, rfl⟩ := (yields_pure_pair _ _ _ _ _).1 hp
    exact .prefixed ht ⟨line, _, he⟩

/-! ## The step -/

/-- Reads tokens that begin with a known construct. -/
def readConstruct (file : String) (read : ExprReader) (line : Nat) (ts : List Token) :
    Construct → Reading (Expr × Nat)
  | .parentheses => readGrouped file read line ts
  | .prefixed op => readPrefixed file read op line ts
  | .list => readListing file read .square .list line ts
  | .call name => readListing file read .round (.call name) line ts
  | .access name => readAccess file read name line ts
  | .atom kind text => readAtom file read kind text line ts

theorem readStep_of_trimmed {line : Nat} {ts : List Token} {c : Construct} (ht : Trimmed ts)
    (hc : Construct.of? ts = some c) :
    readStep file read line ts = readConstruct file read line ts c := by
  unfold readStep
  dsimp only
  rw [ht.trimStart_eq, ht.trimEnd_eq, ht.leadingNewlines_eq, Nat.add_zero, hc]
  cases c <;> rfl

theorem readStep_trim (line : Nat) (ts : List Token) :
    readStep file read line ts
      = readStep file read (line + Token.leadingNewlines ts) (Token.trim ts) := by
  obtain ⟨as, bs, -, -, -, ht⟩ := Token.exists_eq_trim ts
  unfold readStep
  dsimp only
  rw [ht.trimStart_eq, ht.trimEnd_eq, ht.leadingNewlines_eq, Nat.add_zero]
  rfl

/-- A successful step has read tokens of a form that it knows. -/
theorem step_of_readStep {line n reached : Nat} {ts : List Token} {e : Expr} (ht : Trimmed ts)
    (h : (readStep file read line ts).Yields n (e, reached)) : Step file read n ts e := by
  cases hc : Construct.of? ts with
  | none =>
    unfold readStep at h
    dsimp only at h
    rw [ht.trimStart_eq, ht.trimEnd_eq, hc] at h
    exact absurd h (Logged.not_yields_fault _ _ _ _ _)
  | some c =>
    rw [readStep_of_trimmed ht hc] at h
    cases Construct.leads_of_of? ht hc with
    | parentheses rest =>
      obtain ⟨_, _, p, hp, -, -⟩ := (yields_bind _ _ _ _).1 h
      obtain ⟨inner, tail, rfl, hcl⟩ := exists_of_bracketed [] (by simp) hp
      rw [← Token.enclose_append] at h ht ⊢
      exact (parted_of_readGrouped hcl ht h).step
    | list rest =>
      obtain ⟨_, _, p, hp, -, -⟩ := (yields_bind _ _ _ _).1 h
      obtain ⟨inner, tail, rfl, hcl⟩ := exists_of_bracketed [] (by simp) hp
      rw [← Token.enclose_append] at h ht ⊢
      exact (parted_of_readListing [] (by simp) (.list hcl) hcl (.list hcl) ht h).step
    | call name rest hb =>
      obtain ⟨_, _, p, hp, -, -⟩ := (yields_bind _ _ _ _).1 h
      have hbefore := hb.ident_ne_opening name .round
      obtain ⟨inner, tail, rfl, hcl⟩ := exists_of_bracketed _ hbefore hp
      rw [← Token.enclose_append, ← List.append_assoc] at h ht ⊢
      exact (parted_of_readListing _ hbefore (.call name hb hcl) hcl (.call name hb hcl)
        ht h).step
    | access name rest hb =>
      obtain ⟨_, _, p, hp, -, -⟩ := (yields_bind _ _ _ _).1 h
      obtain ⟨inner, tail, rfl, hcl⟩ := exists_of_bracketed _ (hb.ident_ne_opening name .square) hp
      rw [← Token.enclose_append, ← List.append_assoc] at h ht ⊢
      exact (parted_of_readAccess hb hcl ht h).step
    | atom rest ha => exact (parted_of_readAtom ha h).step
    | prefixed rest hp => exact step_of_readPrefixed hp h

/-- A whole construct by itself is not read as an operation. -/
theorem alone_of_readStep {line n reached : Nat} {ts : List Token} {e : Expr} (hw : Whole ts)
    (h : (readStep file read line ts).Yields n (e, reached)) : Alone file read n ts e := by
  have ht := hw.trimmed
  cases hw with
  | atom ha =>
    rw [readStep_of_trimmed ht (Construct.of?_atom ha (by simp [Token.significant?]))] at h
    have hp : Parted file read n [_] [] e := parted_of_readAtom ha h
    exact hp.alone
  | grouped hc hi =>
    rw [readStep_of_trimmed ht rfl] at h
    rw [← List.append_nil (enclose .round _)] at h ht
    exact (parted_of_readGrouped hc ht h).alone
  | list hc =>
    rw [readStep_of_trimmed ht rfl] at h
    rw [← List.append_nil (enclose .square _)] at h ht
    exact (parted_of_readListing [] (by simp) (.list hc) hc (.list hc) ht h).alone
  | call name hb hc =>
    rw [readStep_of_trimmed ht (Construct.of?_ident_opening name hb .round _)] at h
    rw [← List.append_nil (_ ++ enclose .round _)] at h ht
    exact (parted_of_readListing _ (hb.ident_ne_opening name .round) (.call name hb hc) hc
      (.call name hb hc) ht h).alone
  | access name hb hc =>
    rw [readStep_of_trimmed ht (Construct.of?_ident_opening name hb .square _)] at h
    rw [← List.append_nil (_ ++ enclose .square _)] at h ht
    exact (parted_of_readAccess hb hc ht h).alone

/-- A successful step has read tokens of a form that it knows, between line breaks. -/
theorem exists_step_of_readStep {line n reached : Nat} {ts : List Token} {e : Expr}
    (h : (readStep file read line ts).Yields n (e, reached)) :
    ∃ as body bs, ts = as ++ body ++ bs ∧ Blank as ∧ Blank bs ∧ Step file read n body e := by
  obtain ⟨as, bs, ha, hb, he, ht⟩ := Token.exists_eq_trim ts
  rw [readStep_trim] at h
  exact ⟨as, Token.trim ts, bs, he, ha, hb, step_of_readStep ht h⟩

end Expr

end ModelScript
