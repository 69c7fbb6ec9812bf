import ModelScript.Proofs.Expression.Grammar
import ModelScript.Proofs.Scope.Unbroken

/-!
# What the reader of expressions accepts

The reader accepts exactly what the grammar derives, once it may go deep enough
(`read_iff_derives`).  What it has read without a warning is derived, line breaks apart
(`derives_of_yields`), by induction on the depth and from what one step reads.  What is derived is
read (`reads_of_derives`), by induction on the derivation: every search of the reader finds the piece
that the derivation has put there.
-/

namespace ModelScript

open Token (Blank Trimmed enclose unbroken)
open Logged (yields_bind yields_pure)

namespace Expr

variable {file : String} {read : ExprReader}

/-! ## Soundness -/

theorem isOperand_of_read {depth n : Nat} {ts : List Token} {e : Expr} (hw : Whole ts)
    (h : (Expr.read file depth).Gives n ts e) : e.isOperand = true := by
  obtain ⟨line, reached, h⟩ := h
  cases depth with
  | zero => exact absurd h (Logged.not_yields_fail _ _ _)
  | succ depth => exact (alone_of_readStep hw h).isOperand

theorem Elements.ne_nil {n : Nat} {ts : List Token} {es : List Expr} (h : Elements read n ts es) :
    es ≠ [] := by
  cases h <;> simp

section

variable (hr : ∀ {ts e}, read.Gives 0 ts e → Derives (unbroken ts) e)
include hr

theorem Elements.derives {n : Nat} {ts : List Token} {es : List Expr} (h : Elements read n ts es)
    (hn : n = 0) : DerivesList (unbroken ts) es := by
  induction h with
  | last h =>
    subst hn
    exact .last (hr h)
  | @cons m n ts rest e es h h' ih =>
    obtain ⟨rfl, rfl⟩ := Nat.add_eq_zero_iff.1 hn
    rw [Token.unbroken_append, Token.unbroken_cons_of_ne (by simp)]
    obtain ⟨e', es', rfl⟩ := List.exists_cons_of_ne_nil h'.ne_nil
    exact .cons (hr h) (ih rfl)

theorem Listed.derives {ts : List Token} {es : List Expr} (h : Listed read 0 ts es) :
    DerivesList (unbroken ts) es := by
  cases h with
  | empty => exact .empty
  | elements h => exact h.derives hr rfl

theorem Alone.derives (hs : ∀ {line raw e}, (readString file read line raw).Yields 0 e →
    ReadsString raw e) {ts : List Token} {e : Expr} (h : Alone file read 0 ts e) :
    Derives (unbroken ts) e := by
  cases h with
  | atom h hk =>
    rw [Token.unbroken_cons_of_ne (Token.ne_newline_of_atom? h)]
    exact .atom h hk
  | string h => exact .string (hs h)
  | grouped h =>
    rw [Token.unbroken_enclose]
    exact .grouped (hr h)
  | list hc h =>
    rw [Token.unbroken_enclose]
    exact .list (h.derives hr)
  | call name hb hc h =>
    rw [Token.unbroken_ident_append_enclose name hb]
    exact .call name (h.derives hr)
  | access name hb ha hbs h =>
    rw [Token.unbroken_ident_append_enclose name hb, Token.unbroken_append, Token.unbroken_append,
      ha.unbroken_eq, hbs.unbroken_eq, List.nil_append, List.append_nil]
    exact .access name (hr h)

end

/-- What is read without a warning is derived, line breaks apart. -/
theorem derives_of_yields {depth line reached : Nat} {ts : List Token} {e : Expr}
    (h : (Expr.read file depth line ts).Yields 0 (e, reached)) : Derives (unbroken ts) e := by
  induction depth generalizing line reached ts e with
  | zero => exact absurd h (Logged.not_yields_fail _ _ _)
  | succ depth ih =>
    have hr {ts : List Token} {e : Expr} (h : (Expr.read file depth).Gives 0 ts e) :
        Derives (unbroken ts) e := by
      obtain ⟨line, reached, h⟩ := h
      exact ih h
    obtain ⟨as, body, bs, rfl, ha, hb, hstep⟩ := exists_step_of_readStep h
    rw [Token.unbroken_append, Token.unbroken_append, ha.unbroken_eq, hb.unbroken_eq,
      List.nil_append, List.append_nil]
    generalize hn : 0 = n at hstep
    cases hstep with
    | alone h =>
      subst hn
      exact h.derives hr fun hs => ⟨file, depth, _, hs⟩
    | prefixed ht h =>
      subst hn
      have hp := (Token.prefixOf?_eq_some_iff _ _).1 ht
      rw [Token.unbroken_cons_of_ne (by rintro rfl; cases hp)]
      exact .prefixed hp (hr h)
    | operation op hw hbr hleft hright =>
      obtain ⟨rfl, rfl⟩ := Nat.add_eq_zero_iff.1 hn.symm
      rw [Token.unbroken_append, Token.unbroken_append, hbr.unbroken_eq, List.append_nil,
        Token.unbroken_cons_of_ne (by simp)]
      exact .operation op (isOperand_of_read hw hleft) (hr hleft) (hr hright)

/-! ## What one step accepts -/

/-- The reader makes `e` of the tokens in every line, without a warning. -/
def Accepts (read : ExprReader) (ts : List Token) (e : Expr) : Prop :=
  ∀ line, ∃ reached, (read line ts).Yields 0 (e, reached)

/-- The reader makes `es` of the tokens between the brackets of a list. -/
def AcceptsList (read : ExprReader) (ts : List Token) (es : List Expr) : Prop :=
  (ts = [] ∧ es = []) ∨ (ts ≠ [] ∧ List.Forall₂ (Accepts read) (Scope.segments 0 ts) es)

theorem operation?_accepts {head right : List Token} (op : String) {el er : Expr} (line : Nat)
    (hw : Whole head) (hne : right ≠ []) (h : Accepts read head el) (h' : Accepts read right er) :
    ∃ last, (operation? read head.length line (head ++ .operator op :: right)).Yields 0
      (some (.operation el op er, last)) := by
  have hs := (split?_eq_some_iff head (.operator op :: right)
    ⟨head, op, right, Token.newlines head⟩).2
    ⟨[], Blank.nil, rfl, hne, hw.trimmed.trimEnd_eq.symm, rfl⟩
  obtain ⟨reached, hl⟩ := h line
  obtain ⟨last, hr⟩ := h' (max reached (line + Token.newlines head))
  unfold operation?
  rw [hs]
  exact ⟨last, hl.bind_zero (hr.bind_zero ((yields_pure _ _ _).2 ⟨rfl, rfl⟩))⟩

theorem operation?_nil (line : Nat) (head : List Token) :
    operation? read head.length line head = pure none := by
  unfold operation?
  rw [split?_nil]

theorem orOperation_nil (line : Nat) (head : List Token) (alone : Reading (Expr × Nat)) :
    orOperation file read head.length line head alone = alone := by
  unfold orOperation requireEnd
  rw [operation?_nil, pure_bind, List.drop_length]
  rfl

/-- Whatever construct leads the tokens, an operator behind it is looked for first. -/
theorem exists_readStep_eq (file : String) (read : ExprReader) {head tail : List Token}
    (line : Nat) (hw : Whole head)
    (ht : Trimmed (head ++ tail)) (hb : ∀ b, Token.significant? tail ≠ some (.opening b)) :
    ∃ k, readStep file read line (head ++ tail)
      = (operation? read head.length line (head ++ tail) >>= k) ∧ ∀ p, k (some p) = pure p := by
  cases hw with
  | atom ha =>
    rw [readStep_of_trimmed ht (Construct.of?_atom ha hb)]
    exact ⟨_, rfl, fun p => rfl⟩
  | grouped hc hi =>
    rw [← Construct.significant?_eq_none_iff, ← Option.isNone_iff_eq_none] at hi
    rw [readStep_of_trimmed ht rfl, readConstruct, readGrouped_eq file read line hc, if_neg hi]
    exact ⟨_, rfl, fun p => rfl⟩
  | list hc =>
    rw [readStep_of_trimmed ht rfl, readConstruct]
    rw [← List.nil_append (enclose .square _), readListing_eq file read line _ [] (by simp) hc]
    exact ⟨_, rfl, fun p => rfl⟩
  | @call name breaks inner hbl hc =>
    have hof := Construct.of?_ident_opening name hbl .round (inner ++ .closing .round :: tail)
    rw [← Token.enclose_append, ← List.append_assoc] at hof
    rw [readStep_of_trimmed ht hof]
    show ∃ k, readListing _ _ _ _ _ _ = _ ∧ _
    rw [readListing_eq file read line _ _ (hbl.ident_ne_opening name .round) hc]
    exact ⟨_, rfl, fun p => rfl⟩
  | @access name breaks inner hbl hc =>
    have hof := Construct.of?_ident_opening name hbl .square (inner ++ .closing .square :: tail)
    rw [← Token.enclose_append, ← List.append_assoc] at hof
    rw [readStep_of_trimmed ht hof]
    show ∃ k, readAccess _ _ _ _ _ = _ ∧ _
    rw [readAccess_eq file read line name hbl hc]
    exact ⟨_, rfl, fun p => rfl⟩

theorem accepts_operation {head right : List Token} {op : String} {el er : Expr} (hw : Whole head)
    (hn : ∀ t ∈ right, t ≠ .newline) (hne : right ≠ []) (h : Accepts read head el)
    (h' : Accepts read right er) :
    Accepts (readStep file read) (head ++ .operator op :: right) (.operation el op er) := by
  intro line
  have ht : Trimmed (head ++ .operator op :: right) := by
    refine ⟨?_, ?_⟩
    · have := hw.trimmed.head
      rwa [List.head?_append_of_ne_nil _ hw.ne_nil]
    · intro hl
      rw [List.getLast?_append_of_ne_nil _ (by simp)] at hl
      rcases List.mem_cons.1 (List.mem_of_getLast? hl) with hl | hl
      · cases hl
      · exact hn _ hl rfl
  obtain ⟨k, hk, hsome⟩ := exists_readStep_eq file read line hw ht
    (by simp [Token.significant?, Token.isNewline])
  obtain ⟨last, ho⟩ := operation?_accepts op line hw hne h h'
  refine ⟨last, ?_⟩
  rw [hk]
  refine ho.bind_zero ?_
  rw [hsome]
  exact (yields_pure _ _ _).2 ⟨rfl, rfl⟩

theorem accepts_prefixed {t : Token} {op : String} {ts : List Token} {e : Expr}
    (ht : t.Prefixes op) (hn : ∀ t ∈ ts, t ≠ .newline) (hne : ts ≠ []) (h : Accepts read ts e) :
    Accepts (readStep file read) (t :: ts) (.prefixed op e) := by
  intro line
  obtain ⟨t', rest, rfl⟩ := List.exists_cons_of_ne_nil hne
  have hp := (Token.prefixOf?_eq_some_iff t op).2 ht
  have htr : Trimmed (t :: t' :: rest) := by
    refine Token.trimmed_of_forall fun a ha => ?_
    rcases List.mem_cons.1 ha with rfl | ha
    · rintro rfl
      cases hp
    · exact hn a ha
  have hof : Construct.of? (t :: t' :: rest) = some (.prefixed op) := by
    rw [← Construct.prefixOf?_cons t (t' :: rest)] at hp
    unfold Construct.of?
    rw [hp]
  obtain ⟨reached, h⟩ := h line
  rw [readStep_of_trimmed htr hof]
  exact ⟨reached, h.bind_zero ((yields_pure _ _ _).2 ⟨rfl, rfl⟩)⟩

theorem accepts_atom {t : Token} {kind : Atom} {text : String} (h : t.atom? = some (kind, text))
    (hk : kind ≠ .string) : Accepts (readStep file read) [t] (.atom kind text) := by
  intro line
  refine ⟨line, ?_⟩
  rw [readStep_of_trimmed (Whole.atom h).trimmed
    (Construct.of?_atom h (by simp [Token.significant?]))]
  show (readAtom _ _ _ _ _ _).Yields _ _
  unfold readAtom
  rw [show operation? read 1 line [t] = pure none from operation?_nil line [t], pure_bind]
  dsimp only
  split
  · exact absurd rfl hk
  · exact (yields_pure _ _ _).2 ⟨rfl, rfl⟩

theorem readStep_string (file : String) (read : ExprReader) (line : Nat) (raw : String) :
    readStep file read line [.string raw]
      = do return (← readString file read line raw, line) := by
  have hw : Whole [.string raw] := .atom rfl
  rw [readStep_of_trimmed hw.trimmed rfl]
  unfold readConstruct readAtom
  dsimp only
  rw [show operation? read 1 line [.string raw] = pure none from
    operation?_nil line [.string raw], pure_bind]

theorem accepts_string {raw : String} {e : Expr}
    (h : ∀ line, (readString file read line raw).Yields 0 e) :
    Accepts (readStep file read) [.string raw] e := by
  intro line
  refine ⟨line, ?_⟩
  rw [readStep_string]
  exact (h line).bind_zero ((yields_pure _ _ _).2 ⟨rfl, rfl⟩)

theorem accepts_grouped {inner : List Token} {e : Expr} (hc : Scope.Closes .round inner)
    (hi : ¬ Blank inner) (h : Accepts read inner e) :
    Accepts (readStep file read) (enclose .round inner) (.grouped e) := by
  intro line
  obtain ⟨reached, h⟩ := h line
  refine ⟨reached, ?_⟩
  have heq := readGrouped_eq file read line hc []
  rw [← Construct.significant?_eq_none_iff, ← Option.isNone_iff_eq_none] at hi
  rw [if_neg hi, List.append_nil, orOperation_nil] at heq
  have htr : Trimmed (enclose .round inner) := trimmed_append_enclose .round [] inner (by simp)
  rw [readStep_of_trimmed htr rfl, readConstruct, heq]
  exact h.bind_zero ((yields_pure _ _ _).2 ⟨rfl, rfl⟩)

/-! ## Lists -/

theorem elements_accepts {segments : List (List Token)} {es : List Expr}
    (h : List.Forall₂ (Accepts read) segments es) (line : Nat) :
    (elements read line segments).Yields 0 es := by
  induction h generalizing line with
  | nil => exact (yields_pure _ _ _).2 ⟨rfl, rfl⟩
  | cons h _ ih =>
    obtain ⟨reached, h⟩ := h line
    exact h.bind_zero ((ih _).bind_zero ((yields_pure _ _ _).2 ⟨rfl, rfl⟩))

theorem onlyElement_accepts {ts : List Token} {e : Expr} (h : Accepts read ts e) (line : Nat) :
    (onlyElement read line ts).Yields 0 [e] := by
  obtain ⟨reached, ho, hw⟩ := h line
  unfold onlyElement
  dsimp only
  rw [ho]
  exact ⟨rfl, hw⟩

theorem readList_accepts (file : String) {b : Bracket} {before inner : List Token}
    {es : List Expr} (hb : ∀ a ∈ before, a ≠ .opening b) (hc : Scope.Closes b inner)
    (h : AcceptsList read inner es) (line : Nat) (tail : List Token) :
    (readList file read (.mark (.opening b)) (.mark (.closing b)) line
      (before ++ enclose b inner ++ tail)).Yields 0 es := by
  rw [readList_eq hb hc]
  rcases h with ⟨rfl, rfl⟩ | ⟨hne, h⟩
  · rw [if_pos rfl]
    exact (yields_pure _ _ _).2 ⟨rfl, rfl⟩
  · rw [if_neg hne]
    split
    · next ts hts =>
      rw [hts] at h
      obtain ⟨e, es, he, hes, rfl⟩ := List.forall₂_cons_left_iff.1 h
      obtain rfl := List.forall₂_nil_left_iff.1 hes
      have hone := Scope.intercalate_segments 0 inner
      rw [hts, List.intercalate_singleton] at hone
      exact onlyElement_accepts (hone ▸ he) _
    · exact elements_accepts h _

theorem accepts_listing {b : Bracket} {build : List Expr → Expr} (before : List Token)
    {inner : List Token} {es : List Expr} {c : Construct} (hh : before.head? ≠ some .newline)
    (hb : ∀ a ∈ before, a ≠ .opening b) (hc : Scope.Closes b inner)
    (hof : Construct.of? (before ++ enclose b inner) = some c)
    (hread : ∀ line ts, readConstruct file read line ts c = readListing file read b build line ts)
    (h : AcceptsList read inner es) :
    Accepts (readStep file read) (before ++ enclose b inner) (build es) := by
  intro line
  refine ⟨line, ?_⟩
  have heq := readListing_eq file read line build before hb hc []
  have hlist := readList_accepts file hb hc h line []
  rw [List.append_nil] at heq hlist
  rw [orOperation_nil] at heq
  rw [readStep_of_trimmed (trimmed_append_enclose b before inner hh) hof, hread, heq]
  exact hlist.bind_zero ((yields_pure _ _ _).2 ⟨rfl, rfl⟩)

theorem accepts_access (name : String) {inner : List Token} {e : Expr}
    (hc : Scope.Closes .square inner) (hn : ∀ t ∈ inner, t ≠ .newline) (hne : inner ≠ [])
    (h : Accepts read inner e) :
    Accepts (readStep file read) ([.ident name] ++ enclose .square inner) (.access name e) := by
  intro line
  have heq := readAccess_eq file read line name Blank.nil hc []
  have htr := Token.trimmed_of_forall hn
  rw [List.append_nil, orOperation_nil] at heq
  dsimp only at heq
  rw [htr.trim_eq, htr.leadingNewlines_eq, if_neg (by simpa using hne)] at heq
  have hof : Construct.of? ([.ident name] ++ enclose .square inner) = some (.access name) := rfl
  rw [readStep_of_trimmed (trimmed_append_enclose .square [.ident name] inner (by simp)) hof,
    readConstruct, heq]
  generalize line + _ + 0 = first
  obtain ⟨reached, h⟩ := h first
  exact ⟨max line reached, h.bind_zero ((yields_pure _ _ _).2 ⟨rfl, rfl⟩)⟩

/-! ## Completeness -/

/-- The tokens are read as `e` in every file and every line, if they may nest deep enough. -/
def Reads (ts : List Token) (e : Expr) : Prop :=
  ∃ d, ∀ file depth, d ≤ depth → Accepts (Expr.read file depth) ts e

/-- The tokens are read as the elements `es` of a list, if they may nest deep enough. -/
def ReadsList (ts : List Token) (es : List Expr) : Prop :=
  ∃ d, ∀ file depth, d ≤ depth → AcceptsList (Expr.read file depth) ts es

/-- One level more than the pieces need is enough for what a step puts together. -/
theorem reads_of_step {ts : List Token} {e : Expr} (d : Nat)
    (h : ∀ file depth, d ≤ depth → Accepts (readStep file (Expr.read file depth)) ts e) :
    Reads ts e := by
  refine ⟨d + 1, fun file depth hd => ?_⟩
  obtain ⟨k, rfl⟩ : ∃ k, depth = k + 1 := ⟨depth - 1, by omega⟩
  exact h file k (by omega)

/-- A string literal is read in one way, in every file and every line. -/
theorem exists_readString {raw : String} {e : Expr} (h : ReadsString raw e) :
    ∃ d, ∀ file depth line, d ≤ depth →
      (readString file (Expr.read file depth) line raw).Yields 0 e := by
  obtain ⟨file, d, line, h⟩ := h
  refine ⟨d, fun file' depth' line' hd => ?_⟩
  have hr : (Expr.read file d).Carries (fun _ _ => True) (Expr.read file' depth') :=
    read_carries Renumbering.any file file' hd
  have hs : Reading.Carries (fun _ _ => True) Eq (readString file (Expr.read file d) line raw)
      (readString file' (Expr.read file' depth') line' raw) :=
    readString_carries Renumbering.any hr trivial file file' raw
  obtain ⟨e', hy, rfl⟩ := hs.yields h
  exact hy

theorem reads_of_readsString {raw : String} {e : Expr} (h : ReadsString raw e) :
    Reads [.string raw] e := by
  obtain ⟨d, hd⟩ := exists_readString h
  exact reads_of_step d fun file depth hle => accepts_string fun line => hd file depth line hle

mutual

theorem reads_of_derives {ts : List Token} {e : Expr} : Derives ts e → Reads ts e
  | .atom h hk => reads_of_step 0 fun _ _ _ => accepts_atom h hk
  | .string h => reads_of_readsString h
  | .grouped h => by
    obtain ⟨d, hd⟩ := reads_of_derives h
    exact reads_of_step d fun file depth hle =>
      accepts_grouped (h.balanced.closes .round) h.not_blank (hd file depth hle)
  | .list h => by
    obtain ⟨d, hd⟩ := readsList_of_derivesList h
    exact reads_of_step d fun file depth hle =>
      accepts_listing [] (by simp) (by simp) (h.balanced.closes .square) rfl (fun _ _ => rfl)
        (hd file depth hle)
  | .call name h => by
    obtain ⟨d, hd⟩ := readsList_of_derivesList h
    exact reads_of_step d fun file depth hle =>
      accepts_listing [.ident name] (by simp) (by simp) (h.balanced.closes .round) rfl
        (fun _ _ => rfl) (hd file depth hle)
  | .access name h => by
    obtain ⟨d, hd⟩ := reads_of_derives h
    exact reads_of_step d fun file depth hle =>
      accepts_access name (h.balanced.closes .square) h.ne_newline h.ne_nil (hd file depth hle)
  | .prefixed ht h => by
    obtain ⟨d, hd⟩ := reads_of_derives h
    exact reads_of_step d fun file depth hle =>
      accepts_prefixed ht h.ne_newline h.ne_nil (hd file depth hle)
  | .operation op ho h h' => by
    obtain ⟨d, hd⟩ := reads_of_derives h
    obtain ⟨d', hd'⟩ := reads_of_derives h'
    exact reads_of_step (max d d') fun file depth hle =>
      accepts_operation (h.whole ho) h'.ne_newline h'.ne_nil (hd file depth (by omega))
        (hd' file depth (by omega))

theorem readsList_of_derivesList {ts : List Token} {es : List Expr} :
    DerivesList ts es → ReadsList ts es
  | .empty => ⟨0, fun _ _ _ => Or.inl ⟨rfl, rfl⟩⟩
  | .last h => by
    obtain ⟨d, hd⟩ := reads_of_derives h
    refine ⟨d, fun file depth hle => Or.inr ⟨h.ne_nil, ?_⟩⟩
    rw [h.balanced.segments_eq]
    exact .cons (hd file depth hle) .nil
  | .cons h h' => by
    obtain ⟨d, hd⟩ := reads_of_derives h
    obtain ⟨d', hd'⟩ := readsList_of_derivesList h'
    refine ⟨max d d', fun file depth hle => Or.inr ⟨by simp, ?_⟩⟩
    rw [h.balanced.segments_comma]
    rcases hd' file depth (by omega) with ⟨-, hes⟩ | ⟨-, hrest⟩
    · cases hes
    · exact .cons (hd file depth (by omega)) hrest

end

end Expr

theorem ReadsString.unique {raw : String} {e e' : Expr} (h : ReadsString raw e)
    (h' : ReadsString raw e') : e = e' := by
  obtain ⟨d, hd⟩ := Expr.exists_readString h
  obtain ⟨d', hd'⟩ := Expr.exists_readString h'
  have hy := hd default (max d d') 0 (by omega)
  have hy' := hd' default (max d d') 0 (by omega)
  exact (hy.unique hy').1

/-! ## The grammar and the reader -/

/-- Tokens of one line are read as `e` without a warning exactly if they derive `e`: whatever is
read at some depth is derived, and whatever is derived is read at every depth from some depth on. -/
theorem read_iff_derives (file : String) (line : Nat) {ts : List Token} (e : Expr)
    (h : ∀ t ∈ ts, t ≠ .newline) :
    ((∃ depth reached, (Expr.read file depth line ts).Yields 0 (e, reached)) ↔ Derives ts e) ∧
      (Derives ts e → ∃ d, ∀ depth, d ≤ depth →
        ∃ reached, (Expr.read file depth line ts).Yields 0 (e, reached)) := by
  have hread (hd : Derives ts e) : ∃ d, ∀ depth, d ≤ depth →
      ∃ reached, (Expr.read file depth line ts).Yields 0 (e, reached) := by
    obtain ⟨d, hr⟩ := Expr.reads_of_derives hd
    exact ⟨d, fun depth hle => hr file depth hle line⟩
  refine ⟨⟨?_, ?_⟩, hread⟩
  · rintro ⟨depth, reached, hy⟩
    have hd := Expr.derives_of_yields hy
    rwa [Token.unbroken_eq_self h] at hd
  · intro hd
    obtain ⟨d, hr⟩ := hread hd
    exact ⟨d, hr d (Nat.le_refl d)⟩

/-- A sum is read as it is derived. -/
theorem read_sum_iff_derives :
    (∀ t ∈ [Token.ident "a", .operator "+", .integer "1"], t ≠ .newline) ∧
      ∃ depth reached,
        (Expr.read "sum" depth 1 [.ident "a", .operator "+", .integer "1"]).Yields 0
          (.operation (.atom .identifier "a") "+" (.atom .integer "1"), reached) := by
  have hn : ∀ t ∈ [Token.ident "a", .operator "+", .integer "1"], t ≠ .newline := by decide
  have hd : Derives ([.ident "a"] ++ .operator "+" :: [.integer "1"])
      (.operation (.atom .identifier "a") "+" (.atom .integer "1")) :=
    .operation "+" rfl (.atom rfl (by decide)) (.atom rfl (by decide))
  exact ⟨hn, (read_iff_derives "sum" 1 _ hn).1.2 hd⟩

end ModelScript
