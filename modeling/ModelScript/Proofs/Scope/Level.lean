import Mathlib.Order.Lattice.Nat

/-!
# Levels

A level that goes up and down along a list: one up at each element that opens something, and one
down at each element that closes something.  To search for what closes an opening element is to wait
for the level to fall to zero (`eq_firstZero?`).  It does so at the first place up to which, from
the opening element on, as many elements close as open:

    xs[i]? = some x → up x → (IsLeast (evenPlaces up down xs i) j
      ↔ ∃ n, j = i + 1 + n ∧ firstZero? up down 1 (xs.drop (i + 1)) = some n)

A level falls by one at a time, so it passes through zero on its way down (`exists_mem_zeros`), and
what opens in front of a close is closed in front of it too (`exists_evenPlace_lt`).
-/

namespace ModelScript.Level

variable {α : Type} (up down : α → Bool)

/-! ## Rising and falling -/

/-- One level up for an element that opens, and one level down for an element that closes. -/
def step (x : α) : Int := if up x then 1 else if down x then -1 else 0

/-- How far the level rises along some elements. -/
def rise : List α → Int
  | [] => 0
  | x :: xs => step up down x + rise xs

@[simp] theorem rise_nil : rise up down [] = 0 := rfl

@[simp] theorem rise_cons (x : α) (xs : List α) :
    rise up down (x :: xs) = step up down x + rise up down xs := rfl

@[simp] theorem rise_append (xs ys : List α) :
    rise up down (xs ++ ys) = rise up down xs + rise up down ys := by
  induction xs with
  | nil => simp
  | cons x xs ih => rw [List.cons_append, rise_cons, rise_cons, ih, Int.add_assoc]

theorem neg_one_le_step (x : α) : -1 ≤ step up down x := by
  unfold step
  split
  · decide
  · split
    · decide
    · decide

/-- If nothing both opens and closes, the level counts what opens against what closes. -/
theorem rise_eq (h : ∀ x, up x = true → down x = false) (xs : List α) :
    rise up down xs = (xs.countP up : Int) - xs.countP down := by
  induction xs with
  | nil => rfl
  | cons x xs ih =>
    rw [rise_cons, ih, step, List.countP_cons, List.countP_cons]
    by_cases hup : up x = true
    · rw [if_pos hup, if_pos hup, if_neg (by simp [h x hup])]
      omega
    · by_cases hdown : down x = true
      · rw [if_neg hup, if_pos hdown, if_neg hup, if_pos hdown]
        omega
      · rw [if_neg hup, if_neg hdown, if_neg hup, if_neg hdown]
        omega

/-! ## Zeros -/

/-- The places of the elements behind which a level that starts at `d` is zero. -/
def zeros (d : Int) (xs : List α) : Set Nat :=
  {n | n < xs.length ∧ d + rise up down (xs.take (n + 1)) = 0}

/-- The place of the first element behind which the level is zero. -/
def firstZero? : Int → List α → Option Nat
  | _, [] => none
  | d, x :: xs =>
    if d + step up down x = 0 then some 0 else (· + 1) <$> firstZero? (d + step up down x) xs

variable {up down} {d : Int} {x x' : α} {xs : List α} {i i' j n : Nat}

/-- A search that counts the depth, and ends where it would be zero, waits for the level to fall to
zero. -/
theorem eq_firstZero? {search : Nat → List α → Option Nat} (hnil : ∀ d, search d [] = none)
    (hup : ∀ d x xs, up x = true → search d (x :: xs) = (· + 1) <$> search (d + 1) xs)
    (hdown : ∀ d x xs, up x = false → down x = true →
      search d (x :: xs) = if d ≤ 1 then some 0 else (· + 1) <$> search (d - 1) xs)
    (hother : ∀ d x xs, up x = false → down x = false →
      search d (x :: xs) = (· + 1) <$> search d xs)
    {d : Nat} (hd : 1 ≤ d) (xs : List α) : search d xs = firstZero? up down d xs := by
  induction xs generalizing d with
  | nil => exact hnil d
  | cons x xs ih =>
    rw [firstZero?, step]
    cases hx : up x with
    | true =>
      have hrise : ((d + 1 : Nat) : Int) = d + 1 := by omega
      rw [hup d x xs hx, if_pos rfl, if_neg (by omega), ih (by omega), hrise]
    | false =>
      rw [if_neg Bool.false_ne_true]
      cases hx' : down x with
      | true =>
        rw [hdown d x xs hx hx', if_pos rfl]
        by_cases hlast : d ≤ 1
        · rw [if_pos hlast, if_pos (by omega)]
        · have hfall : ((d - 1 : Nat) : Int) = d + -1 := by omega
          rw [if_neg hlast, if_neg (by omega), ih (by omega), hfall]
      | false =>
        rw [hother d x xs hx hx', if_neg Bool.false_ne_true, Int.add_zero, if_neg (by omega), ih hd]

theorem zero_mem_zeros_cons : 0 ∈ zeros up down d (x :: xs) ↔ d + step up down x = 0 := by
  simp [zeros]

theorem succ_mem_zeros_cons :
    n + 1 ∈ zeros up down d (x :: xs) ↔ n ∈ zeros up down (d + step up down x) xs := by
  simp [zeros, Int.add_assoc]

/-- The least zero is the first element, or the least zero behind it. -/
theorem isLeast_zeros_cons : IsLeast (zeros up down d (x :: xs)) n ↔
    if d + step up down x = 0 then n = 0
    else ∃ m, n = m + 1 ∧ IsLeast (zeros up down (d + step up down x) xs) m := by
  by_cases hx : d + step up down x = 0
  · rw [if_pos hx]
    have hzero : IsLeast (zeros up down d (x :: xs)) 0 :=
      ⟨zero_mem_zeros_cons.mpr hx, fun k _ => Nat.zero_le k⟩
    constructor
    · intro h
      exact h.unique hzero
    · rintro rfl
      exact hzero
  · rw [if_neg hx]
    constructor
    · rintro ⟨hmem, hleast⟩
      cases n with
      | zero => exact absurd (zero_mem_zeros_cons.mp hmem) hx
      | succ m =>
        refine ⟨m, rfl, succ_mem_zeros_cons.mp hmem, fun k hk => ?_⟩
        have := hleast (succ_mem_zeros_cons.mpr hk)
        omega
    · rintro ⟨m, rfl, hmem, hleast⟩
      refine ⟨succ_mem_zeros_cons.mpr hmem, fun k hk => ?_⟩
      cases k with
      | zero => exact absurd (zero_mem_zeros_cons.mp hk) hx
      | succ k =>
        have := hleast (succ_mem_zeros_cons.mp hk)
        omega

theorem firstZero?_eq_some_iff :
    firstZero? up down d xs = some n ↔ IsLeast (zeros up down d xs) n := by
  induction xs generalizing d n with
  | nil =>
    constructor
    · intro h
      cases h
    · intro h
      exact absurd h.1.1 (Nat.not_lt_zero n)
  | cons x xs ih =>
    rw [firstZero?, isLeast_zeros_cons]
    by_cases hx : d + step up down x = 0
    · rw [if_pos hx, if_pos hx, Option.some.injEq, eq_comm]
    · rw [if_neg hx, if_neg hx, Option.map_eq_map, Option.map_eq_some_iff]
      constructor
      · rintro ⟨m, hm, rfl⟩
        exact ⟨m, rfl, ih.mp hm⟩
      · rintro ⟨m, rfl, hm⟩
        exact ⟨m, ih.mpr hm, rfl⟩

/-- A level above zero that ends at zero or below passes through zero. -/
theorem exists_mem_zeros (hd : 0 < d) (h : d + rise up down xs ≤ 0) :
    ∃ n, n ∈ zeros up down d xs := by
  induction xs generalizing d with
  | nil =>
    rw [rise_nil] at h
    omega
  | cons x xs ih =>
    have hx := neg_one_le_step up down x
    rw [rise_cons] at h
    by_cases hzero : d + step up down x = 0
    · exact ⟨0, zero_mem_zeros_cons.mpr hzero⟩
    · obtain ⟨n, hn⟩ := ih (d := d + step up down x) (by omega) (by omega)
      exact ⟨n + 1, succ_mem_zeros_cons.mpr hn⟩

theorem mem_zeros_of_take {k : Nat} (h : n ∈ zeros up down d (xs.take k)) :
    n ∈ zeros up down d xs ∧ n < k := by
  obtain ⟨hlt, hzero⟩ := h
  rw [List.length_take] at hlt
  rw [List.take_take, Nat.min_eq_left (by omega)] at hzero
  exact ⟨⟨by omega, hzero⟩, by omega⟩

/-- Up to the element that brings it to zero the level is above zero. -/
theorem rise_pos (hd : 0 < d) (h : IsLeast (zeros up down d xs) n) {k : Nat} (hk : k ≤ n) :
    0 < d + rise up down (xs.take k) := by
  by_contra hle
  obtain ⟨m, hm⟩ := exists_mem_zeros hd (Int.not_lt.mp hle)
  obtain ⟨hmem, hlt⟩ := mem_zeros_of_take hm
  have := h.2 hmem
  omega

/-- The element that brings the level to zero closes something. -/
theorem exists_down (hd : 0 < d) (h : IsLeast (zeros up down d xs) n) :
    ∃ x, xs[n]? = some x ∧ down x = true := by
  obtain ⟨hlt, hzero⟩ := h.1
  have hpos := rise_pos hd h (Nat.le_refl n)
  refine ⟨xs[n], List.getElem?_eq_getElem hlt, ?_⟩
  rw [List.take_succ_eq_append_getElem hlt, rise_append, rise_cons, rise_nil, step] at hzero
  split at hzero
  · omega
  · split at hzero
    · assumption
    · omega

/-- What opens in front of the close is closed in front of it too. -/
theorem exists_zero_lt (h : IsLeast (zeros up down 1 xs) n) {k : Nat} (hk : k ≤ n)
    (hx : xs[k]? = some x) (hup : up x = true) :
    ∃ m ∈ zeros up down 1 (xs.drop (k + 1)), k + 1 + m < n := by
  have hpos := rise_pos Int.one_pos h hk
  obtain ⟨-, hzero⟩ := h.1
  obtain ⟨hlt, rfl⟩ := List.getElem?_eq_some_iff.mp hx
  have hsplit : xs.take (n + 1) = xs.take k ++ xs[k] :: (xs.drop (k + 1)).take (n - k) := by
    rw [show n + 1 = k + (n - k + 1) by omega, List.take_add, List.drop_eq_getElem_cons hlt,
      List.take_succ_cons]
  rw [hsplit, rise_append, rise_cons, step, if_pos hup] at hzero
  -- the level that starts behind the opening element is below zero at the close
  have hbelow : 1 + rise up down ((xs.drop (k + 1)).take (n - k)) < 0 := by omega
  obtain ⟨m, hm⟩ := exists_mem_zeros Int.one_pos (Int.le_of_lt hbelow)
  obtain ⟨hmem, hlt'⟩ := mem_zeros_of_take hm
  refine ⟨m, hmem, ?_⟩
  by_contra hge
  have hlast : m + 1 = n - k := by omega
  have hzero' := hmem.2
  rw [hlast] at hzero'
  omega

/-! ## Even places -/

/-- The elements from one place to another, both included. -/
def stretch (xs : List α) (i j : Nat) : List α := (xs.take (j + 1)).drop i

/-- The places behind `i` up to which, from `i` on, as many elements open as close. -/
def evenPlaces (up down : α → Bool) (xs : List α) (i : Nat) : Set Nat :=
  {j | i < j ∧ j < xs.length ∧ (stretch xs i j).countP up = (stretch xs i j).countP down}

theorem stretch_eq (hi : xs[i]? = some x) (n : Nat) :
    stretch xs i (i + 1 + n) = x :: (xs.drop (i + 1)).take (n + 1) := by
  obtain ⟨hlt, rfl⟩ := List.getElem?_eq_some_iff.mp hi
  unfold stretch
  rw [List.drop_take, List.drop_eq_getElem_cons hlt,
    show i + 1 + n + 1 - i = n + 1 + 1 by omega, List.take_succ_cons]

section

variable (h : ∀ x, up x = true → down x = false)
include h

/-- Behind an opening element the even places are those where the level is zero. -/
theorem mem_evenPlaces_iff (hi : xs[i]? = some x) (hup : up x = true) :
    j ∈ evenPlaces up down xs i ↔
      ∃ n, j = i + 1 + n ∧ n ∈ zeros up down 1 (xs.drop (i + 1)) := by
  have hstretch (n : Nat) :
      (stretch xs i (i + 1 + n)).countP up = (stretch xs i (i + 1 + n)).countP down
        ↔ 1 + rise up down ((xs.drop (i + 1)).take (n + 1)) = 0 := by
    have hrise := rise_eq up down h (stretch xs i (i + 1 + n))
    rw [stretch_eq hi, rise_cons, step, if_pos hup] at hrise
    rw [stretch_eq hi]
    omega
  constructor
  · rintro ⟨hlt, hlength, heven⟩
    obtain ⟨n, rfl⟩ : ∃ n, j = i + 1 + n := ⟨j - (i + 1), by omega⟩
    refine ⟨n, rfl, ?_, (hstretch n).mp heven⟩
    rw [List.length_drop]
    omega
  · rintro ⟨n, rfl, hlength, hzero⟩
    rw [List.length_drop] at hlength
    exact ⟨by omega, by omega, (hstretch n).mpr hzero⟩

theorem isLeast_evenPlaces_iff (hi : xs[i]? = some x) (hup : up x = true) :
    IsLeast (evenPlaces up down xs i) j ↔
      ∃ n, j = i + 1 + n ∧ firstZero? up down 1 (xs.drop (i + 1)) = some n := by
  simp only [firstZero?_eq_some_iff]
  constructor
  · rintro ⟨hmem, hleast⟩
    obtain ⟨n, rfl, hn⟩ := (mem_evenPlaces_iff h hi hup).mp hmem
    refine ⟨n, rfl, hn, fun m hm => ?_⟩
    have := hleast ((mem_evenPlaces_iff h hi hup).mpr ⟨m, rfl, hm⟩)
    omega
  · rintro ⟨n, rfl, hn, hleast⟩
    refine ⟨(mem_evenPlaces_iff h hi hup).mpr ⟨n, rfl, hn⟩, fun j hj => ?_⟩
    obtain ⟨m, rfl, hm⟩ := (mem_evenPlaces_iff h hi hup).mp hj
    have := hleast hm
    omega

/-- The first even place is that of a closing element. -/
theorem exists_down_of_isLeast (hi : xs[i]? = some x) (hup : up x = true)
    (hj : IsLeast (evenPlaces up down xs i) j) : ∃ x, xs[j]? = some x ∧ down x = true := by
  obtain ⟨n, rfl, hn⟩ := (isLeast_evenPlaces_iff h hi hup).mp hj
  rw [← List.getElem?_drop]
  exact exists_down Int.one_pos (firstZero?_eq_some_iff.mp hn)

/-- What opens between an opening element and its close evens out in front of that close. -/
theorem exists_evenPlace_lt (hi : xs[i]? = some x) (hup : up x = true)
    (hj : IsLeast (evenPlaces up down xs i) j) (hi' : xs[i']? = some x') (hup' : up x' = true)
    (hlt : i < i') (hle : i' ≤ j) : ∃ j' ∈ evenPlaces up down xs i', j' < j := by
  obtain ⟨n, rfl, hn⟩ := (isLeast_evenPlaces_iff h hi hup).mp hj
  -- counted from behind the first opening element, the second is at `k`
  obtain ⟨k, rfl⟩ : ∃ k, i' = i + 1 + k := ⟨i' - (i + 1), by omega⟩
  have hk : (xs.drop (i + 1))[k]? = some x' := by rw [List.getElem?_drop, hi']
  obtain ⟨m, hm, hclosed⟩ :=
    exists_zero_lt (firstZero?_eq_some_iff.mp hn) (by omega) hk hup'
  rw [List.drop_drop, ← Nat.add_assoc] at hm
  exact ⟨_, (mem_evenPlaces_iff h hi' hup').mpr ⟨m, rfl, hm⟩, by omega⟩

end

end ModelScript.Level
