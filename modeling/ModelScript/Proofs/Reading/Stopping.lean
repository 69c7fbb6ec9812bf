import ModelScript.Proofs.Reading.Yields

/-!
# Where a reading stops

`x.Faults f` says that the computation `x` stops at the fault `f`.  A computation that is put
together stops where its first part does, or where its second part does on the result of the first:

    (x >>= g).Faults f ↔ x.Faults f ∨ ∃ n a, x.Yields n a ∧ (g a).Faults f     (faults_bind)

Together with `yields_bind` this takes every run apart, finished or not.
-/

namespace ModelScript.Logged

variable {α β : Type}

/-- The computation stops at a fault. -/
def Faults (x : Logged Stop α) (f : Fault) : Prop := x.outcome = .error (.fault f)

theorem not_faults_pure (a : α) (f : Fault) : ¬ (pure a : Logged Stop α).Faults f := by
  intro h
  cases h

theorem faults_fault (file : String) (line : Nat) (p : Problem) (f : Fault) :
    (Reading.fault file line p : Reading α).Faults f ↔ f = ⟨file, line, p⟩ := by
  constructor
  · intro h
    cases h
    rfl
  · rintro rfl
    rfl

theorem faults_bind (x : Logged Stop α) (g : α → Logged Stop β) (f : Fault) :
    (x >>= g).Faults f ↔ x.Faults f ∨ ∃ n a, x.Yields n a ∧ (g a).Faults f := by
  rw [bind_def]
  obtain ⟨events, outcome⟩ := x
  cases outcome with
  | error e =>
    constructor
    · intro h
      cases h
      exact Or.inl rfl
    · rintro (h | ⟨n, a, ⟨h, -⟩, -⟩)
      · cases h
        rfl
      · cases h
  | ok a =>
    constructor
    · intro h
      exact Or.inr ⟨_, a, ⟨rfl, rfl⟩, h⟩
    · rintro (h | ⟨n, a', ⟨h, -⟩, h'⟩)
      · cases h
      · cases h
        exact h'

/-! ## Lexing -/

theorem yields_tokens (file : String) (line : Nat) (source : List Char) (n : Nat)
    (ts : List Token) :
    (Reading.tokens file line source).Yields n ts ↔
      n = 0 ∧ tokenize file line source = .ok ts := by
  unfold Reading.tokens
  cases tokenize file line source with
  | error f =>
    constructor
    · rintro ⟨h, -⟩
      cases h
    · rintro ⟨-, h⟩
      cases h
  | ok us =>
    constructor
    · rintro ⟨h, rfl⟩
      cases h
      exact ⟨rfl, rfl⟩
    · rintro ⟨rfl, h⟩
      cases h
      exact ⟨rfl, rfl⟩

theorem faults_tokens (file : String) (line : Nat) (source : List Char) (f : Fault) :
    (Reading.tokens file line source).Faults f ↔ tokenize file line source = .error f := by
  unfold Reading.tokens
  cases tokenize file line source with
  | error g =>
    constructor
    · intro h
      cases h
      rfl
    · intro h
      cases h
      rfl
  | ok us =>
    constructor
    · intro h
      cases h
    · intro h
      cases h

/-- No list is wanted from a text where there can be none. -/
theorem ne_noList_tokens (file : String) (line : Nat) (source : List Char) (k : Kind) :
    (Reading.tokens file line source).outcome ≠ .error (.noList k) := by
  unfold Reading.tokens
  intro h
  split at h <;> cases h

end ModelScript.Logged
