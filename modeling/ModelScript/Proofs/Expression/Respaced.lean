import ModelScript.Proofs.Expression.Renumbering
import ModelScript.Proofs.Expression.Unbroken
import ModelScript.Proofs.Reading.Tracking
import ModelScript.Proofs.Token.Respaced

/-!
# Expressions with more or fewer blank lines

How many line breaks stand in a row makes no difference to an expression: respaced tokens are read
as the same expression with the same warnings, or refused for the same problem (`read_tracks`).
Each function of a reading step takes respaced tokens alike if the readers for the expressions
inside do, and the induction is on the depth.

That tokens are respaced by themselves makes this a statement about one list of tokens too: what is
read at some depth is read at every greater one, in any file and from any line.
-/

namespace ModelScript

open Token (Blank Trimmed enclose)
open Reading (Tracks)

/-- The same result, wherever it was read and wherever its reading has come to. -/
abbrev SameResult {α : Type} : α × Nat → α × Nat → Prop := Reached fun _ _ => True

/-- Readers that take respaced tokens alike, on whatever lines. -/
def ExprReader.Tracks (r r' : ExprReader) : Prop :=
  ∀ (l l' : Nat) {ts us : List Token}, Respaced ts us →
    Reading.Tracks SameResult (r l ts) (r' l' us)

theorem ExprReader.Tracks.carries {r r' : ExprReader} (h : r.Tracks r') :
    r.Carries (fun _ _ => True) r' :=
  fun _ _ => h _ _ (.refl _)

theorem Construct.of?_respaced {ts us : List Token} (h : Respaced ts us) (ht : Trimmed ts)
    (hu : Trimmed us) : Construct.of? ts = Construct.of? us := by
  rw [← Construct.of?_unbroken ht, ← Construct.of?_unbroken hu, h.unbroken_eq]

/-- What holds a name and line breaks corresponds to the name and line breaks. -/
theorem Respaced.exists_of_ident {name : String} {breaks us : List Token} (hb : Blank breaks)
    (h : Respaced (.ident name :: breaks) us) :
    ∃ breaks', us = .ident name :: breaks' ∧ Blank breaks' ∧ Respaced breaks breaks' := by
  obtain ⟨breaks', rfl, hr⟩ := h.exists_of_cons (by simp)
  exact ⟨breaks', rfl, hr.blank_iff.1 hb, hr⟩

namespace Expr

variable {file file' : String} {r r' : ExprReader}

section

variable (hr : r.Tracks r')
include hr

/-! ## Operators -/

theorem operation?_tracks (l l' : Nat) {head head' tail tail' : List Token}
    (hh : Respaced head head') (ht : Respaced tail tail') :
    Tracks (Option.Rel SameResult) (operation? r head.length l (head ++ tail))
      (operation? r' head'.length l' (head' ++ tail')) := by
  unfold operation? split?
  rw [List.drop_left, List.take_left, List.drop_left, List.take_left]
  have htail := ht.trimStart
  generalize Token.trimStart tail = x at htail
  generalize Token.trimStart tail' = y at htail
  cases htail with
  | nil => exact .pure .none
  | breaks => exact .pure .none
  | @token t rest rest' hne hrest =>
    cases t with
    | operator op =>
      cases rest with
      | nil =>
        obtain rfl := hrest.eq_nil_iff.1 rfl
        exact .pure .none
      | cons a rest =>
        obtain ⟨a', rest', rfl⟩ := List.exists_cons_of_ne_nil (mt hrest.eq_nil_iff.2 (by simp))
        refine (hr _ _ hh.trimEnd).bind ?_
        rintro ⟨e, m⟩ ⟨_, m'⟩ ⟨rfl, -⟩
        refine (hr _ _ hrest).bind ?_
        rintro ⟨f, k⟩ ⟨_, k'⟩ ⟨rfl, -⟩
        exact .pure (.some ⟨rfl, trivial⟩)
    | _ => exact .pure .none

theorem orOperation_tracks (l l' : Nat) {head head' tail tail' : List Token}
    (hh : Respaced head head') (ht : Respaced tail tail') {alone alone' : Reading (Expr × Nat)}
    (ha : Tracks SameResult alone alone') :
    Tracks SameResult (orOperation file r head.length l (head ++ tail) alone)
      (orOperation file' r' head'.length l' (head' ++ tail') alone') := by
  unfold orOperation
  refine (operation?_tracks hr l l' hh ht).bind ?_
  intro a b hab
  cases hab with
  | some hab => exact .pure hab
  | none =>
    refine Reading.Carries.bind (A := Eq) ?_ fun _ _ _ => ha
    unfold requireEnd
    rw [List.drop_left, List.drop_left]
    have htail := ht.trimStart
    generalize Token.trimStart tail = x at htail
    generalize Token.trimStart tail' = y at htail
    cases htail with
    | nil => exact .pure rfl
    | token => exact Tracks.fault _ _ _ _ _
    | breaks => exact Tracks.fault _ _ _ _ _

/-! ## Lists -/

theorem elements_tracks (l l' : Nat) {xs ys : List (List Token)}
    (h : List.Forall₂ Respaced xs ys) : Tracks Eq (elements r l xs) (elements r' l' ys) := by
  induction h generalizing l l' with
  | nil => exact .pure rfl
  | cons h _ ih =>
    refine (hr _ _ h).bind ?_
    rintro ⟨e, m⟩ ⟨_, m'⟩ ⟨rfl, -⟩
    refine (ih _ _).bind ?_
    rintro es _ rfl
    exact .pure rfl

theorem onlyElement_tracks (l l' : Nat) {ts us : List Token} (h : Respaced ts us) :
    Tracks Eq (onlyElement r l ts) (onlyElement r' l' us) := by
  have hread := hr l l' h
  unfold onlyElement
  generalize r l ts = x at hread ⊢
  generalize r' l' us = y at hread ⊢
  obtain ⟨ex, ox⟩ := x
  obtain ⟨ey, oy⟩ := y
  rcases hread with hdeep | ⟨he, hread⟩
  · cases hdeep
    exact .tooDeep rfl
  · cases hread with
    | ok hab => exact Or.inr ⟨he, .ok (by rw [hab.1])⟩
    | fault hp => exact Or.inr ⟨List.rel_append he (.cons (.dropped hp) .nil), .ok rfl⟩
    | noList k => exact Or.inr ⟨he, .noList k⟩

theorem readList_tracks (l l' : Nat) {b : Bracket}
    {before before' inner inner' tail tail' : List Token}
    (hb : ∀ a ∈ before, a ≠ .opening b) (hb' : ∀ a ∈ before', a ≠ .opening b)
    (hc : Scope.Closes b inner) (hi : Respaced inner inner') :
    Tracks Eq
      (readList file r (.mark (.opening b)) (.mark (.closing b)) l
        (before ++ enclose b inner ++ tail))
      (readList file' r' (.mark (.opening b)) (.mark (.closing b)) l'
        (before' ++ enclose b inner' ++ tail')) := by
  rw [readList_eq hb hc, readList_eq hb' ((hi.closes_iff b).1 hc)]
  by_cases hnil : inner = []
  · rw [if_pos hnil, if_pos (hi.eq_nil_iff.1 hnil)]
    exact .pure rfl
  · rw [if_neg hnil, if_neg (mt hi.eq_nil_iff.2 hnil)]
    have hs := hi.segments 0
    generalize Scope.segments 0 inner = xs at hs
    generalize Scope.segments 0 inner' = ys at hs
    cases hs with
    | nil => exact elements_tracks hr _ _ .nil
    | cons h hs =>
      cases hs with
      | nil => exact onlyElement_tracks hr _ _ hi
      | cons h' hs => exact elements_tracks hr _ _ (.cons h (.cons h' hs))

/-! ## Brackets -/

theorem readGrouped_tracks (l l' : Nat) {rest rest' : List Token} (h : Respaced rest rest') :
    Tracks SameResult (readGrouped file r l (.opening .round :: rest))
      (readGrouped file' r' l' (.opening .round :: rest')) := by
  by_cases hc : ∃ inner tail, rest = inner ++ .closing .round :: tail ∧ Scope.Closes .round inner
  · obtain ⟨inner, tail, rfl, hc⟩ := hc
    obtain ⟨inner', tail', rfl, hi, ht⟩ := h.exists_of_append_cons (by simp)
    rw [← Token.enclose_append, ← Token.enclose_append, readGrouped_eq file r l hc,
      readGrouped_eq file' r' l' ((hi.closes_iff .round).1 hc), hi.significant?_eq]
    split
    · exact .fault _ _ _ _ _
    · refine orOperation_tracks hr l l' (hi.enclose .round) ht ((hr _ _ hi).bind ?_)
      rintro ⟨e, m⟩ ⟨_, m'⟩ ⟨rfl, -⟩
      exact .pure ⟨rfl, trivial⟩
  · have hopen := bracketed_of_not_closed file l [] (by simp) hc
    have hopen' := bracketed_of_not_closed file' l' [] (by simp)
      (mt (h.exists_closes_iff .round).2 hc)
    rw [List.nil_append] at hopen hopen'
    unfold readGrouped
    rw [hopen, hopen']
    exact .fault_bind _ _ _ _ _

theorem readListing_tracks (l l' : Nat) {b : Bracket} (build : List Expr → Expr)
    {before before' rest rest' : List Token} (hb : ∀ a ∈ before, a ≠ .opening b)
    (hb' : ∀ a ∈ before', a ≠ .opening b) (hbefore : Respaced before before')
    (h : Respaced rest rest') :
    Tracks SameResult (readListing file r b build l (before ++ .opening b :: rest))
      (readListing file' r' b build l' (before' ++ .opening b :: rest')) := by
  by_cases hc : ∃ inner tail, rest = inner ++ .closing b :: tail ∧ Scope.Closes b inner
  · obtain ⟨inner, tail, rfl, hc⟩ := hc
    obtain ⟨inner', tail', rfl, hi, ht⟩ := h.exists_of_append_cons (by simp)
    rw [← Token.enclose_append, ← Token.enclose_append, ← List.append_assoc, ← List.append_assoc,
      readListing_eq file r l build _ hb hc,
      readListing_eq file' r' l' build _ hb' ((hi.closes_iff b).1 hc)]
    refine orOperation_tracks hr l l' (hbefore.append (hi.enclose b)) ht ?_
    refine (readList_tracks hr l l' hb hb' hc hi).bind ?_
    rintro es _ rfl
    exact .pure ⟨rfl, trivial⟩
  · unfold readListing
    rw [bracketed_of_not_closed file l before hb hc, bracketed_of_not_closed file' l' _ hb'
      (mt (h.exists_closes_iff b).2 hc)]
    exact .fault_bind _ _ _ _ _

theorem readAccess_tracks (l l' : Nat) (name : String) {breaks breaks' rest rest' : List Token}
    (hb : Blank breaks) (hb' : Blank breaks') (hbreaks : Respaced breaks breaks')
    (h : Respaced rest rest') :
    Tracks SameResult
      (readAccess file r name l (.ident name :: breaks ++ .opening .square :: rest))
      (readAccess file' r' name l' (.ident name :: breaks' ++ .opening .square :: rest')) := by
  by_cases hc : ∃ inner tail, rest = inner ++ .closing .square :: tail ∧ Scope.Closes .square inner
  · obtain ⟨inner, tail, rfl, hc⟩ := hc
    obtain ⟨inner', tail', rfl, hi, ht⟩ := h.exists_of_append_cons (by simp)
    have hhead := (hbreaks.cons (.ident name)).append (hi.enclose .square)
    rw [← Token.enclose_append, ← Token.enclose_append, ← List.append_assoc, ← List.append_assoc,
      readAccess_eq file r l name hb hc,
      readAccess_eq file' r' l' name hb' ((hi.closes_iff .square).1 hc)]
    refine orOperation_tracks hr l l' hhead ht ?_
    dsimp only
    by_cases hnil : Token.trim inner = []
    · rw [if_pos (by simp [hnil]), if_pos (by simp [hi.trim.eq_nil_iff.1 hnil])]
      exact .fault _ _ _ _ _
    · rw [if_neg (by simpa using hnil), if_neg (by simpa using mt hi.trim.eq_nil_iff.2 hnil)]
      refine (hr _ _ hi.trim).bind ?_
      rintro ⟨e, m⟩ ⟨_, m'⟩ ⟨rfl, -⟩
      exact .pure ⟨rfl, trivial⟩
  · unfold readAccess
    rw [bracketed_of_not_closed file l _ (hb.ident_ne_opening name .square) hc,
      bracketed_of_not_closed file' l' _ (hb'.ident_ne_opening name .square)
        (mt (h.exists_closes_iff .square).2 hc)]
    exact .fault_bind _ _ _ _ _

/-! ## Prefixes and atoms -/

theorem readPrefixed_tracks (l l' : Nat) (t : Token) (op : String) {rest rest' : List Token}
    (h : Respaced rest rest') :
    Tracks SameResult (readPrefixed file r op l (t :: rest))
      (readPrefixed file' r' op l' (t :: rest')) := by
  cases rest with
  | nil =>
    obtain rfl := h.eq_nil_iff.1 rfl
    exact .fault _ _ _ _ _
  | cons a rest =>
    obtain ⟨a', rest', rfl⟩ := List.exists_cons_of_ne_nil (mt h.eq_nil_iff.2 (by simp))
    refine (hr _ _ h).bind ?_
    rintro ⟨e, m⟩ ⟨_, m'⟩ ⟨rfl, -⟩
    exact .pure ⟨rfl, trivial⟩

theorem readAtom_tracks (l l' : Nat) (t : Token) (kind : Atom) (text : String)
    {rest rest' : List Token} (h : Respaced rest rest') :
    Tracks SameResult (readAtom file r kind text l (t :: rest))
      (readAtom file' r' kind text l' (t :: rest')) := by
  unfold readAtom
  refine Reading.Carries.bind
    (operation?_tracks hr l l' (.refl [t]) h) ?_
  intro a b hab
  cases hab with
  | some hab => exact .pure hab
  | none =>
    cases rest with
    | nil =>
      obtain rfl := h.eq_nil_iff.1 rfl
      dsimp only
      split
      · refine (readString_carries .any hr.carries trivial file file' text).bind ?_
        rintro e _ rfl
        exact .pure ⟨rfl, trivial⟩
      · exact .pure ⟨rfl, trivial⟩
    | cons a rest =>
      obtain ⟨a', rest', rfl⟩ := List.exists_cons_of_ne_nil (mt h.eq_nil_iff.2 (by simp))
      obtain rfl : a = a' := Option.some.inj h.head?_eq
      exact Tracks.fault _ _ _ _ _

theorem readConstruct_tracks (l l' : Nat) {ts us : List Token} {c : Construct}
    (hc : Construct.Leads ts c) (h : Respaced ts us) :
    Tracks SameResult (readConstruct file r l ts c) (readConstruct file' r' l' us c) := by
  cases hc with
  | parentheses rest =>
    obtain ⟨rest', rfl, hrest⟩ := h.exists_of_cons (by simp)
    exact readGrouped_tracks hr l l' hrest
  | prefixed rest hp =>
    obtain ⟨rest', rfl, hrest⟩ := h.exists_of_cons (by rintro rfl; cases hp)
    exact readPrefixed_tracks hr l l' _ _ hrest
  | list rest =>
    obtain ⟨rest', rfl, hrest⟩ := h.exists_of_cons (by simp)
    have hnone : ∀ a ∈ ([] : List Token), a ≠ .opening .square := by simp
    exact readListing_tracks hr l l' _ hnone hnone .nil hrest
  | call name rest hb =>
    obtain ⟨before', rest', rfl, hbefore, hrest⟩ := h.exists_of_append_cons (by simp)
    obtain ⟨breaks', rfl, hb', -⟩ := hbefore.exists_of_ident hb
    exact readListing_tracks hr l l' _ (hb.ident_ne_opening name .round)
      (hb'.ident_ne_opening name .round) hbefore hrest
  | access name rest hb =>
    obtain ⟨before', rest', rfl, hbefore, hrest⟩ := h.exists_of_append_cons (by simp)
    obtain ⟨breaks', rfl, hb', hbreaks⟩ := hbefore.exists_of_ident hb
    exact readAccess_tracks hr l l' name hb hb' hbreaks hrest
  | atom rest ha =>
    obtain ⟨rest', rfl, hrest⟩ := h.exists_of_cons (Token.ne_newline_of_atom? ha)
    exact readAtom_tracks hr l l' _ _ _ hrest

theorem readStep_tracks (file file' : String) : (readStep file r).Tracks (readStep file' r') := by
  intro l l' ts us h
  obtain ⟨-, -, -, -, -, ht⟩ := Token.exists_eq_trim ts
  obtain ⟨-, -, -, -, -, hu⟩ := Token.exists_eq_trim us
  have hof := Construct.of?_respaced h.trim ht hu
  rw [readStep_trim l ts, readStep_trim l' us]
  cases hc : Construct.of? (Token.trim ts) with
  | none =>
    rw [hc] at hof
    unfold readStep
    dsimp only
    rw [ht.trimStart_eq, ht.trimEnd_eq, hu.trimStart_eq, hu.trimEnd_eq, hc, ← hof,
      h.trim.head?_eq]
    exact .fault _ _ _ _ _
  | some c =>
    rw [readStep_of_trimmed ht hc, readStep_of_trimmed hu (hof ▸ hc)]
    exact readConstruct_tracks hr _ _ (Construct.leads_of_of? ht hc) h.trim

end

/-! ## Levels -/

/-- Respaced tokens are read alike, in any files and from any lines, by readers of which the second
may go deeper. -/
theorem read_tracks (file file' : String) {depth depth' : Nat} (h : depth ≤ depth') :
    (read file depth).Tracks (read file' depth') := by
  induction depth generalizing depth' with
  | zero => exact fun _ _ _ _ _ => .tooDeep rfl
  | succ depth ih =>
    obtain ⟨k, rfl⟩ : ∃ k, depth' = k + 1 := ⟨depth' - 1, by omega⟩
    exact readStep_tracks (ih (by omega)) file file'

end Expr

end ModelScript
