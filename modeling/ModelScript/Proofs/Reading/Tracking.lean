import ModelScript.Proofs.Reading.Renumbering
import ModelScript.Proofs.Reading.Stopping

/-!
# Readings that end alike

`x.Tracks A y` says that `y` does what `x` does wherever the two stand, unless `x` is too deep: it
is `Carries` for any two line numbers.  Where each of two readings tracks the other they end alike
(`Same.of_tracks`): both are too deep, or both have results that are related, with as many
warnings, or both stop at the same problem.
-/

namespace ModelScript

namespace Reading

/-- Unless `x` is too deep, `y` does the same in whatever lines. -/
abbrev Tracks {α β : Type} (A : α → β → Prop) : Reading α → Reading β → Prop :=
  Carries (fun _ _ => True) A

/-- Both readings end in the same way. -/
inductive Same {α β : Type} (A : α → β → Prop) (x : Reading α) (y : Reading β) : Prop
  | tooDeep (h : x.outcome = .error .tooDeep) (h' : y.outcome = .error .tooDeep) : Same A x y
  | yields {n : Nat} {a : α} {b : β} (h : x.Yields n a) (h' : y.Yields n b) (hab : A a b) :
    Same A x y
  | faults {f g : Fault} (h : x.Faults f) (h' : y.Faults g) (hp : f.problem = g.problem) :
    Same A x y

variable {α β γ δ : Type} {A : α → β → Prop} {B : γ → δ → Prop}

theorem Tracks.fault (file file' : String) (l l' : Nat) (p : Problem) :
    Tracks A (Reading.fault file l p) (Reading.fault file' l' p) :=
  Carries.fault file file' p trivial

/-- A reading that is too deep is tracked by every other. -/
theorem Tracks.tooDeep {x : Reading α} {y : Reading β} (h : x.outcome = .error .tooDeep) :
    Tracks A x y := Or.inl h

/-- Both stop at a problem, so it does not matter what would follow. -/
theorem Tracks.fault_bind (file file' : String) (l l' : Nat) (p : Problem) {f : α → Reading γ}
    {g : β → Reading δ} :
    Tracks B (Reading.fault file l p >>= f) (Reading.fault file' l' p >>= g) :=
  Carries.bind (A := fun _ _ => False) (.fault file file' p trivial) fun _ _ h => h.elim

namespace Same

theorem of_tracks {A' : β → α → Prop} {x : Reading α} {y : Reading β} (h : Tracks A x y)
    (h' : Tracks A' y x) (hx : ∀ k, x.outcome ≠ .error (.noList k)) :
    Same A x y := by
  obtain ⟨ex, ox⟩ := x
  obtain ⟨ey, oy⟩ := y
  rcases h with h | ⟨he, h⟩
  · rcases h' with h' | ⟨-, h'⟩
    · exact .tooDeep h h'
    · dsimp only at h h'
      rw [h] at h'
      cases h'
  · cases h with
    | ok hab => exact .yields ⟨rfl, rfl⟩ ⟨rfl, (length_warnings_eq he).symm⟩ hab
    | fault hp => exact .faults rfl rfl hp.1
    | noList k => exact absurd rfl (hx k)

theorem map {x : Reading α} {y : Reading β} {f : α → Reading γ} {g : β → Reading δ}
    (h : Same A x y)
    (hf : ∀ a b, A a b → ∃ c d, (f a).Yields 0 c ∧ (g b).Yields 0 d ∧ B c d) :
    Same B (x >>= f) (y >>= g) := by
  cases h with
  | tooDeep h h' =>
    obtain ⟨ex, ox⟩ := x
    obtain ⟨ey, oy⟩ := y
    cases h
    cases h'
    exact .tooDeep rfl rfl
  | yields h h' hab =>
    obtain ⟨c, d, hc, hd, hcd⟩ := hf _ _ hab
    exact .yields (h.bind hc) (h'.bind hd) hcd
  | faults h h' hp =>
    exact .faults ((Logged.faults_bind _ _ _).2 (Or.inl h))
      ((Logged.faults_bind _ _ _).2 (Or.inl h')) hp

end Same

end Reading

end ModelScript
