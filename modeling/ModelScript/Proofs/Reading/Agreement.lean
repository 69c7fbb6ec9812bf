import ModelScript.Proofs.Reading.Renumbering

/-!
# Readings that agree

Two readings of texts that differ only in their layout end alike: both have a result, and the
results are related, or both stop at faults of one category.  What they show of a fault may differ,
for a line break is as good a leftover as what follows it.  `x.Agrees A y` says so unless `x` is too
deep, and agreement is kept when readings are put together:

    x.Agrees A y → (∀ a b, A a b → (f a).Agrees B (g b)) → (x >>= f).Agrees B (y >>= g)
-/

namespace ModelScript

/-- Related results, or faults of one category. -/
inductive Stop.Agree {α β : Type} (A : α → β → Prop) : Except Stop α → Except Stop β → Prop
  | ok {a : α} {b : β} (h : A a b) : Agree A (.ok a) (.ok b)
  | fault {f g : Fault} (h : f.problem.category = g.problem.category) :
    Agree A (.error (.fault f)) (.error (.fault g))

namespace Reading

/-- Unless `x` is too deep, `y` ends like it. -/
def Agrees {α β : Type} (A : α → β → Prop) (x : Reading α) (y : Reading β) : Prop :=
  x.outcome = .error .tooDeep ∨ Stop.Agree A x.outcome y.outcome

namespace Agrees

variable {α β γ δ : Type} {A : α → β → Prop} {B : γ → δ → Prop}

theorem pure {a : α} {b : β} (h : A a b) : Agrees A (Pure.pure a) (Pure.pure b) :=
  Or.inr (.ok h)

theorem fault {l l' : Nat} (file file' : String) {p q : Problem} (h : p.category = q.category) :
    Agrees A (Reading.fault file l p) (Reading.fault file' l' q) :=
  Or.inr (.fault h)

theorem bind {x : Reading α} {y : Reading β} {f : α → Reading γ} {g : β → Reading δ}
    (h : Agrees A x y) (hf : ∀ a b, A a b → Agrees B (f a) (g b)) :
    Agrees B (x >>= f) (y >>= g) := by
  obtain ⟨ex, ox⟩ := x
  obtain ⟨ey, oy⟩ := y
  rcases h with h | h
  · cases h
    exact Or.inl rfl
  · cases h with
    | ok ha => exact hf _ _ ha
    | fault hc => exact Or.inr (.fault hc)

/-- Readings that differ in their places only agree. -/
theorem of_carries {R : Nat → Nat → Prop} {x : Reading α} {y : Reading β} (h : Carries R A x y)
    (hx : ∀ k, x.outcome ≠ .error (.noList k)) : Agrees A x y := by
  unfold Agrees
  rcases h with h | ⟨-, h⟩
  · exact Or.inl h
  · generalize x.outcome = ox at h hx
    generalize y.outcome = oy at h
    cases h with
    | ok h => exact Or.inr (.ok h)
    | fault h => exact Or.inr (.fault (by rw [h.1]))
    | noList k => exact absurd rfl (hx k)

end Agrees

end Reading

end ModelScript
