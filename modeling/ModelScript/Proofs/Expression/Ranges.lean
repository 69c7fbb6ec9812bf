import ModelScript.Proofs.Lookup.Interpolation
import ModelScript.Proofs.Scope.Level

/-!
# Where interpolations stand

The search for interpolations goes through a text once, from one place to the next.  It passes a
place where none begins or where the one that begins is never closed, and jumps behind one that is
closed: `Found text i rs` tells what it finds from `i` on, and the search finds it (`found_scan`).

So an interpolation ends at the first place up to which its braces are even, it begins behind the
one in front of it, and outside of all of them nothing begins that could be closed
(`ranges_exact`).
-/

namespace ModelScript.Interpolation

open Lookup (escapes escapes_append)

/-! ## Beginnings -/

/-- The places of the marker and of the brace that an interpolation can begin with. -/
inductive Begins (text : List Char) : Nat → Nat → Prop
  /-- A brace at the very start of the text. -/
  | bare (hb : text[0]? = some '\x7b') : Begins text 0 0
  /-- A dollar sign behind an even number of backslashes, and a brace. -/
  | marked {i : Nat} (hm : text[i]? = some '$') (hb : text[i + 1]? = some '\x7b')
    (he : escapes (text.take i) = false) : Begins text i (i + 1)

/-- The places behind `i` up to which, from `i` on, as many braces open as close. -/
abbrev evenPlaces (text : List Char) (i : Nat) : Set Nat :=
  Level.evenPlaces (fun c : Char => c = '\x7b') (fun c : Char => c = '\x7d') text i

variable {text rest : List Char} {c : Char} {i b j : Nat} {r : Interpolation}
  {rs : List Interpolation}

theorem Begins.le (h : Begins text i b) : i ≤ b := by
  cases h with
  | bare => exact Nat.le_refl 0
  | marked => exact Nat.le_succ i

theorem Begins.brace (h : Begins text i b) : text[b]? = some '\x7b' := by
  cases h with
  | bare hb => exact hb
  | marked _ hb _ => exact hb

theorem Begins.lt_length (h : Begins text i b) : i < text.length := by
  obtain ⟨hlt, -⟩ := List.getElem?_eq_some_iff.mp h.brace
  exact Nat.lt_of_le_of_lt h.le hlt

theorem getElem?_of_drop (h : text.drop i = c :: rest) : text[i]? = some c := by
  rw [← List.head?_drop, h]
  rfl

theorem drop_succ_of_drop (h : text.drop i = c :: rest) : text.drop (i + 1) = rest := by
  rw [← List.drop_drop, h]
  rfl

theorem begins_iff (h : text.drop i = c :: rest) : Begins text i b ↔
    (i = 0 ∧ b = 0 ∧ c = '\x7b') ∨
      (b = i + 1 ∧ c = '$' ∧ rest.head? = some '\x7b' ∧ escapes (text.take i) = false) := by
  have hhere := getElem?_of_drop h
  have hnext : text[i + 1]? = rest.head? := by rw [← List.head?_drop, drop_succ_of_drop h]
  constructor
  · intro hbegins
    cases hbegins with
    | bare hb => exact Or.inl ⟨rfl, rfl, Option.some.inj (hhere.symm.trans hb)⟩
    | marked hm hb he =>
      exact Or.inr ⟨rfl, Option.some.inj (hhere.symm.trans hm), hnext.symm.trans hb, he⟩
  · rintro (⟨rfl, rfl, rfl⟩ | ⟨rfl, rfl, hb, he⟩)
    · exact .bare hhere
    · exact .marked hhere (hnext.trans hb) he

/-! ## Closes -/

/-- The search for a closing brace waits for the level to fall to zero. -/
theorem closeAfter?_eq_firstZero? {d : Nat} (hd : 1 ≤ d) (cs : List Char) :
    closeAfter? d cs
      = Level.firstZero? (fun c : Char => c = '\x7b') (fun c : Char => c = '\x7d') d cs := by
  refine Level.eq_firstZero? (fun d => rfl) ?_ ?_ ?_ hd cs
  · intro d c cs ho
    rw [of_decide_eq_true ho, closeAfter?_opening]
  · intro d c cs _ hc
    rw [of_decide_eq_true hc, closeAfter?_closing]
  · intro d c cs ho hc
    exact closeAfter?_other d cs (of_decide_eq_false ho) (of_decide_eq_false hc)

theorem not_closes_of_opens (c : Char) (h : decide (c = '\x7b') = true) :
    decide (c = '\x7d') = false := by
  rw [of_decide_eq_true h]
  decide

/-- The brace that is found closes the one that is looked from. -/
theorem isLeast_evenPlaces_iff (hb : text[b]? = some '\x7b') :
    IsLeast (evenPlaces text b) j ↔
      ∃ n, j = b + 1 + n ∧ closeAfter? 1 (text.drop (b + 1)) = some n := by
  rw [closeAfter?_eq_firstZero? (Nat.le_refl 1)]
  exact Level.isLeast_evenPlaces_iff not_closes_of_opens hb rfl

theorem startingAt?_eq_some_iff (h : text.drop i = c :: rest) :
    startingAt? i (escapes (text.take i)) (c :: rest) = some r ↔
      ∃ b j, r = ⟨i, b, j⟩ ∧ Begins text i b ∧ IsLeast (evenPlaces text b) j := by
  have hafter := drop_succ_of_drop h
  -- what begins here ends with the close of its brace
  have hclose {b : Nat} {place : Nat → Interpolation} (hb : ∀ b', Begins text i b' ↔ b' = b)
      (hplace : ∀ n, place n = ⟨i, b, b + 1 + n⟩) :
      place <$> closeAfter? 1 (text.drop (b + 1)) = some r ↔
        ∃ b j, r = ⟨i, b, j⟩ ∧ Begins text i b ∧ IsLeast (evenPlaces text b) j := by
    have hbegins := (hb b).mpr rfl
    rw [Option.map_eq_map, Option.map_eq_some_iff]
    constructor
    · rintro ⟨n, hn, rfl⟩
      exact ⟨b, _, hplace n, hbegins, (isLeast_evenPlaces_iff hbegins.brace).mpr ⟨n, rfl, hn⟩⟩
    · rintro ⟨b', j, rfl, hb', hj⟩
      obtain rfl := (hb b').mp hb'
      obtain ⟨n, rfl, hn⟩ := (isLeast_evenPlaces_iff hbegins.brace).mp hj
      exact ⟨n, hn, hplace n⟩
  have hnone (hb : ∀ b, ¬ Begins text i b) : none = some r ↔
      ∃ b j, r = ⟨i, b, j⟩ ∧ Begins text i b ∧ IsLeast (evenPlaces text b) j :=
    ⟨nofun, fun ⟨b, _, _, hb', _⟩ => (hb b hb').elim⟩
  unfold startingAt?
  split
  · next heq =>
    cases heq
    split
    · next hi =>
      subst hi
      rw [← hafter]
      refine hclose (b := 0) (fun b => ?_) (fun n => ?_)
      · simp [begins_iff h]
      · rw [Nat.zero_add, Nat.add_comm]
    · next hi => exact hnone fun b hb => by simp [begins_iff h, hi] at hb
  · next rest' heq =>
    cases heq
    split
    · next he => exact hnone fun b hb => by simp [begins_iff h, he] at hb
    · next he =>
      have hrest := drop_succ_of_drop hafter
      rw [← hrest]
      refine hclose (b := i + 1) (fun b => ?_) (fun n => rfl)
      simp [begins_iff h, he]
  · next hbare hmarked =>
    refine hnone fun b hb => ?_
    rcases (begins_iff h).mp hb with ⟨-, -, rfl⟩ | ⟨-, rfl, hhead, -⟩
    · exact hbare rest rfl
    · obtain ⟨rest', rfl⟩ := List.head?_eq_some_iff.mp hhead
      exact hmarked rest' rfl

/-- Where no interpolation starts, nothing begins that could be closed. -/
theorem evenPlaces_eq_empty (h : text.drop i = c :: rest)
    (hnone : startingAt? i (escapes (text.take i)) (c :: rest) = none) (hb : Begins text i b) :
    evenPlaces text b = ∅ := by
  by_contra hne
  have hleast := isLeast_csInf (Set.nonempty_iff_ne_empty.mpr hne)
  have hsome := (startingAt?_eq_some_iff h).mpr ⟨b, _, rfl, hb, hleast⟩
  rw [hnone] at hsome
  cases hsome

/-! ## The search -/

/-- What the search finds from a place on. -/
inductive Found (text : List Char) : Nat → List Interpolation → Prop
  | done {i : Nat} (h : text.length ≤ i) : Found text i []
  | passed {i : Nat} {rs : List Interpolation} (h : ∀ b, Begins text i b → evenPlaces text b = ∅)
    (hrest : Found text (i + 1) rs) : Found text i rs
  | found {i b j : Nat} {rs : List Interpolation} (hb : Begins text i b)
    (hj : IsLeast (evenPlaces text b) j) (hrest : Found text (j + 1) rs) :
    Found text i (⟨i, b, j⟩ :: rs)

theorem getElem?_of_isLeast (hb : text[b]? = some '\x7b') (hj : IsLeast (evenPlaces text b) j) :
    text[j]? = some '\x7d' := by
  obtain ⟨x, hx, hclose⟩ := Level.exists_down_of_isLeast not_closes_of_opens hb rfl hj
  rw [hx, of_decide_eq_true hclose]

/-- What stands behind a character is escaped if that is a backslash that is not. -/
theorem escapes_take_succ (h : text[i]? = some c) :
    escapes (text.take (i + 1)) = (c = '\\' && !escapes (text.take i)) := by
  obtain ⟨hi, rfl⟩ := List.getElem?_eq_some_iff.mp h
  rw [List.take_succ_eq_append_getElem hi, escapes_append]

theorem found_scan (text : List Char) (i : Nat) :
    Found text i (scan i (escapes (text.take i)) 0 (text.drop i)) := by
  cases h : text.drop i with
  | nil =>
    have hi : text.length ≤ i := List.drop_eq_nil_iff.mp h
    exact .done hi
  | cons c rest =>
    have hhere := getElem?_of_drop h
    have hafter := drop_succ_of_drop h
    have hi : i < text.length := (List.getElem?_eq_some_iff.mp hhere).1
    rw [scan]
    cases hr : startingAt? i (escapes (text.take i)) (c :: rest) with
    | none =>
      dsimp only
      rw [← escapes_take_succ hhere, ← hafter]
      exact .passed (fun b hb => evenPlaces_eq_empty h hr hb) (found_scan text (i + 1))
    | some r =>
      obtain ⟨b, j, rfl, hb, hj⟩ := (startingAt?_eq_some_iff h).mp hr
      dsimp only
      have hle := hb.le
      have hlt := hj.1.1
      -- the search goes on behind a closing brace, where nothing is escaped
      have hescapes : escapes (text.take (j + 1)) = false := by
        rw [escapes_take_succ (getElem?_of_isLeast hb.brace hj)]
        rfl
      have hrest : rest.drop (j - i) = text.drop (j + 1) := by
        rw [← hafter, List.drop_drop]
        congr 1
        omega
      have hplace : i + 1 + (j - i) = j + 1 := by omega
      have hnext := found_scan text (j + 1)
      rw [hescapes] at hnext
      rw [scan_skip, hrest, hplace]
      exact .found hb hj hnext
termination_by text.length - i

/-! ## What is found -/

theorem Found.exact (h : Found text i rs) : ∀ r ∈ rs, i ≤ r.marker ∧
    Begins text r.marker r.opening ∧ IsLeast (evenPlaces text r.opening) r.closing := by
  induction h with
  | done => exact fun r hr => nomatch hr
  | passed _ _ ih => exact fun r hr => ⟨Nat.le_of_succ_le (ih r hr).1, (ih r hr).2⟩
  | @found i b j rs hb hj _ ih =>
    refine List.forall_mem_cons.mpr ⟨⟨Nat.le_refl i, hb, hj⟩, fun r hr => ⟨?_, (ih r hr).2⟩⟩
    have hle := hb.le
    have hlt := hj.1.1
    have hmarker := (ih r hr).1
    omega

theorem Found.pairwise (h : Found text i rs) :
    rs.Pairwise fun r s => r.closing < s.marker := by
  induction h with
  | done => exact .nil
  | passed _ _ ih => exact ih
  | found _ _ hrest ih => exact .cons (fun s hs => (hrest.exact s hs).1) ih

/-- Nothing begins outside of what is found that could be closed. -/
theorem Found.evenPlaces_eq_empty (h : Found text i rs) {m : Nat} (hm : i ≤ m)
    (hb : Begins text m b) (hout : ∀ r ∈ rs, m < r.marker ∨ r.closing < m) :
    evenPlaces text b = ∅ := by
  induction h with
  | done hlength => exact absurd hb.lt_length (by omega)
  | @passed i rs hnone _ ih =>
    rcases Nat.eq_or_lt_of_le hm with rfl | hlt
    · exact hnone b hb
    · exact ih hlt hout
  | found _ _ _ ih =>
    obtain ⟨hfirst, hothers⟩ := List.forall_mem_cons.mp hout
    dsimp only at hfirst
    exact ih (by omega) hothers

/-- A text cut in front of its interpolations and behind them, from a place on. -/
def tiles (text : List Char) : Nat → List Interpolation → List (List Char)
  | start, [] => [text.drop start]
  | start, r :: rs =>
    (text.take r.marker).drop start :: Level.stretch text r.marker r.closing
      :: tiles text (r.closing + 1) rs

theorem drop_take_append {α : Type} (xs : List α) {m n : Nat} (h : m ≤ n) :
    (xs.take n).drop m ++ xs.drop n = xs.drop m := by
  obtain ⟨k, rfl⟩ : ∃ k, n = m + k := ⟨n - m, by omega⟩
  rw [List.drop_take, Nat.add_sub_cancel_left, ← List.drop_drop, List.take_append_drop]

theorem Found.flatten_tiles (h : Found text i rs) {start : Nat} (hs : start ≤ i) :
    (tiles text start rs).flatten = text.drop start := by
  induction h generalizing start with
  | done => simp [tiles]
  | passed _ _ ih => exact ih (by omega)
  | @found i b j rs hb hj _ ih =>
    have hle := hb.le
    have hlt := hj.1.1
    have hspan : i ≤ j + 1 := by omega
    rw [tiles, List.flatten_cons, List.flatten_cons, ih (Nat.le_refl _), Level.stretch,
      drop_take_append text hspan, drop_take_append text hs]

/-- The interpolations of a text.  Each begins with a brace at the very start, or with a dollar sign
behind an even number of backslashes and a brace, and ends with the first brace that evens the
braces out.  They stand one behind the other, and outside of them nothing begins whose brace could
be closed.  Together with the gaps between them they are the text. -/
theorem ranges_exact (text : List Char) :
    (∀ r ∈ ranges text, Begins text r.marker r.opening ∧
        IsLeast (evenPlaces text r.opening) r.closing ∧
        r.marker ≤ r.opening ∧ r.opening < r.closing ∧ r.closing < text.length ∧
        text[r.opening]? = some '\x7b' ∧ text[r.closing]? = some '\x7d') ∧
      (ranges text).Pairwise (fun r s => r.closing < s.marker) ∧
      (∀ i b, Begins text i b → (∀ r ∈ ranges text, i < r.marker ∨ r.closing < i) →
        evenPlaces text b = ∅) ∧
      (tiles text 0 (ranges text)).flatten = text := by
  have h : Found text 0 (ranges text) := found_scan text 0
  refine ⟨fun r hr => ?_, h.pairwise, fun i b hb => h.evenPlaces_eq_empty (Nat.zero_le i) hb, ?_⟩
  · obtain ⟨-, hb, hj⟩ := h.exact r hr
    exact ⟨hb, hj, hb.le, hj.1.1, hj.1.2.1, hb.brace, getElem?_of_isLeast hb.brace hj⟩
  · rw [h.flatten_tiles (Nat.le_refl 0), List.drop_zero]

/-- Nested braces, an escaped marker and one that is never closed. -/
theorem ranges_exact_unclosed :
    let text := "\x7ba\x7d$\x7b[\x7bb\x7d]\x7d\\$\x7bc\x7d$\x7bd".toList
    ranges text = [⟨0, 0, 2⟩, ⟨3, 4, 10⟩] ∧ IsLeast (evenPlaces text 4) 10 ∧
      Begins text 16 17 ∧ evenPlaces text 17 = ∅ := by
  intro text
  have hranges : ranges text = [⟨0, 0, 2⟩, ⟨3, 4, 10⟩] := by decide
  have hbegins : Begins text 16 17 := .marked rfl rfl rfl
  obtain ⟨hall, -, hout, -⟩ := ranges_exact text
  rw [hranges] at hall hout
  obtain ⟨-, hclose, -⟩ := hall ⟨3, 4, 10⟩ (by simp)
  exact ⟨hranges, hclose, hbegins, hout 16 17 hbegins (by simp)⟩

end ModelScript.Interpolation
