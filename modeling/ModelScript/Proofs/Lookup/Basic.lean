import Mathlib.Data.List.Basic
import ModelScript.Proofs.Reading.Yields

/-!
# Readings that look things up

The readers take lists apart by their shape, and a token by what it is, so they have no way to ask
for what is not there.  Here the same computations are done by look-ups that can miss: the item at
an index, the entry under a key, the text of a token.  A `Looking` computation stops where a reading
does, or at a miss; `Looking.of` turns a reading into one, and a computation that equals
`Looking.of x` never misses, unless `x` wants a list where there can be none.

`walk` is the loop over indices, and does what `steps` does with the items at these
indices if they are all there (`walk_eq`).
-/

namespace ModelScript

inductive Miss where
  /-- No item at an index. -/
  | index
  /-- No entry under a key. -/
  | key
  /-- No text of a token that has to have one. -/
  | text
  /-- No name in front of an index in brackets. -/
  | name
  /-- No projection for a kind of node. -/
  | projection
  /-- No end of a loop within the rounds that it has. -/
  | round
  deriving DecidableEq, Repr

/-- Why a computation with look-ups stops. -/
inductive Halt where
  | stop (stop : Stop)
  | miss (miss : Miss)
  deriving DecidableEq, Repr

/-- A stop of a reading.  Where a list was asked for between brackets that hold none, no entry was
found for them. -/
def Halt.of : Stop → Halt
  | .noList _ => .miss .key
  | .fault f => .stop (.fault f)
  | .tooDeep => .stop .tooDeep

/-- A computation with look-ups. -/
abbrev Looking := Logged Halt

namespace Looking

variable {α β σ ρ : Type}

/-- A reading, as a computation with look-ups. -/
def of (x : Reading α) : Looking α := ⟨x.events, x.outcome.mapError Halt.of⟩

/-- No look-up misses. -/
def Finds (x : Looking α) : Prop := ∀ m, x.outcome ≠ .error (.miss m)

/-- Stops at a problem in a line of a file. -/
def fault (file : String) (line : Nat) (p : Problem) : Looking α :=
  .fail (.stop (.fault ⟨file, line, p⟩))

def item (items : List α) (i : Nat) : Looking α :=
  match items[i]? with
  | some a => return a
  | none => .fail (.miss .index)

def entry [BEq α] (table : List (α × β)) (key : α) : Looking β :=
  match table.lookup key with
  | some b => return b
  | none => .fail (.miss .key)

def text (t : Token) : Looking String :=
  match t.payload? with
  | some s => return s
  | none => .fail (.miss .text)

/-- Goes over the items at some indices, one after the other, until a step has a result. -/
def walk (items : List α) (step : Nat → σ → α → σ ⊕ ρ) : List Nat → σ → Looking (σ ⊕ ρ)
  | [], s => return .inl s
  | i :: rest, s => do
    match step i s (← item items i) with
    | .inl s => walk items step rest s
    | .inr r => return .inr r

/-- The indices from one up to another. -/
def range (start stop : Nat) : List Nat := List.range' start (stop - start)

/-! ## Readings -/

theorem of_pure (a : α) : of (pure a) = pure a := rfl

theorem of_fault (file : String) (line : Nat) (p : Problem) :
    of (Reading.fault file line p : Reading α) = fault file line p := rfl

theorem of_bind (x : Reading α) (f : α → Reading β) :
    of (x >>= f) = of x >>= fun a => of (f a) := by
  obtain ⟨events, outcome⟩ := x
  cases outcome with
  | error e => rfl
  | ok a => rfl

/-- One computation after the other does what the readings do, if both do. -/
theorem bind_eq_of {look : Looking α} {x : Reading α} {f : α → Looking β} {g : α → Reading β}
    (hx : look = of x) (h : ∀ n a, x.Yields n a → f a = of (g a)) :
    look >>= f = of (x >>= g) := by
  rw [hx, of_bind]
  obtain ⟨events, outcome⟩ := x
  cases outcome with
  | error e => rfl
  | ok a =>
    have hfa := h _ a ⟨rfl, rfl⟩
    show Logged.andThen _ _ = Logged.andThen _ _
    unfold Logged.andThen of
    dsimp only [Except.mapError]
    rw [hfa]
    rfl

theorem of_map (f : α → β) (x : Reading α) : of (f <$> x) = f <$> of x := by
  rw [map_eq_pure_bind, map_eq_pure_bind, of_bind]
  rfl

/-- A computation that does what a reading does finds all that it looks up, if the reading wants no
list where there can be none. -/
theorem finds_of {x : Reading α} (hx : ∀ k, x.outcome ≠ .error (.noList k)) : (of x).Finds := by
  obtain ⟨events, outcome⟩ := x
  intro m h
  cases outcome with
  | ok a => cases h
  | error e =>
    cases e with
    | noList k => exact absurd rfl (hx k)
    | fault f => cases h
    | tooDeep => cases h

/-! ## Look-ups -/

theorem item_eq {items : List α} {i : Nat} {a : α} (h : items[i]? = some a) :
    item items i = pure a := by
  unfold item
  rw [h]

theorem entry_eq [BEq α] {table : List (α × β)} {key : α} {b : β} (h : table.lookup key = some b) :
    entry table key = pure b := by
  unfold entry
  rw [h]

theorem text_eq {t : Token} {s : String} (h : t.payload? = some s) : text t = pure s := by
  unfold text
  rw [h]

/-! ## Loops -/

/-- Goes over items with their indices, until a step has a result. -/
def steps (step : Nat → σ → α → σ ⊕ ρ) : List (α × Nat) → σ → σ ⊕ ρ
  | [], s => .inl s
  | (a, i) :: rest, s =>
    match step i s a with
    | .inl s => steps step rest s
    | .inr r => .inr r

theorem steps_cons_inl {step : Nat → σ → α → σ ⊕ ρ} {a : α} {i : Nat} {s s' : σ}
    (h : step i s a = .inl s') (rest : List (α × Nat)) :
    steps step ((a, i) :: rest) s = steps step rest s' := by
  rw [steps, h]

theorem steps_cons_inr {step : Nat → σ → α → σ ⊕ ρ} {a : α} {i : Nat} {s : σ} {r : ρ}
    (h : step i s a = .inr r) (rest : List (α × Nat)) :
    steps step ((a, i) :: rest) s = .inr r := by
  rw [steps, h]

/-- No index of a loop misses if there is an item at each. -/
theorem walk_eq {items : List α} (step : Nat → σ → α → σ ⊕ ρ) {pairs : List (α × Nat)}
    (h : ∀ p ∈ pairs, items[p.2]? = some p.1) (s : σ) :
    walk items step (pairs.map (·.2)) s = pure (steps step pairs s) := by
  induction pairs generalizing s with
  | nil => rfl
  | cons p rest ih =>
    have hp := item_eq (h p (by simp))
    rw [List.map_cons, walk, hp, pure_bind]
    unfold steps
    split
    · exact ih (fun q hq => h q (by simp [hq])) _
    · rfl

/-- The items between two indices, numbered from the first on, stand at their numbers. -/
theorem getElem?_of_mem_zipIdx {items : List α} {start stop : Nat} {p : α × Nat}
    (hp : p ∈ ((items.take stop).drop start).zipIdx start) : items[p.2]? = some p.1 := by
  obtain ⟨hle, hget⟩ := List.mem_zipIdx_iff_le_and_getElem?_sub.1 hp
  rw [List.getElem?_drop, Nat.add_sub_cancel' hle] at hget
  rw [← hget, List.getElem?_take_of_lt]
  by_contra hlt
  rw [List.getElem?_take_eq_none (Nat.le_of_not_lt hlt)] at hget
  cases hget

theorem walk_range {items : List α} (step : Nat → σ → α → σ ⊕ ρ) (start : Nat) {stop : Nat}
    (h : stop ≤ items.length) (s : σ) :
    walk items step (range start stop) s
      = pure (steps step (((items.take stop).drop start).zipIdx start) s) := by
  have hindices : range start stop = (((items.take stop).drop start).zipIdx start).map (·.2) := by
    rw [range, List.zipIdx_map_snd, List.length_drop, List.length_take, Nat.min_eq_left h]
  rw [hindices, walk_eq _ fun p => getElem?_of_mem_zipIdx]

theorem walk_reverse_range {items : List α} (step : Nat → σ → α → σ ⊕ ρ) {stop : Nat}
    (h : stop ≤ items.length) (s : σ) :
    walk items step (List.range stop).reverse s
      = pure (steps step (items.take stop).zipIdx.reverse s) := by
  have hindices : (List.range stop).reverse = (items.take stop).zipIdx.reverse.map (·.2) := by
    rw [List.map_reverse, List.zipIdx_map_snd, List.length_take, Nat.min_eq_left h,
      List.range_eq_range']
  rw [hindices, walk_eq _ fun p hp => ?_]
  have hslice : p ∈ ((items.take stop).drop 0).zipIdx 0 := List.mem_reverse.1 hp
  exact getElem?_of_mem_zipIdx hslice

theorem walk_range_length (items : List α) (step : Nat → σ → α → σ ⊕ ρ) (start : Nat) (s : σ) :
    walk items step (range start items.length) s
      = pure (steps step ((items.drop start).zipIdx start) s) := by
  rw [walk_range step start (Nat.le_refl _), List.take_length]

end Looking

end ModelScript
