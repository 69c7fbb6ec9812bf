import Mathlib.Data.List.Forall2
import ModelScript.Expression.Parser
import ModelScript.Proofs.Reading.Yields

/-!
# Readings that differ in their places

The file name and the line numbers that a reader is given show up in faults and in the line that it
reaches, and nowhere else; and a reader that may go deeper finishes what a shallower one has
finished.  `Reading.Carries R A x y` says both at once: either `x` is too deep, or `x` and `y` do
the same, up to lines related by `R` and results related by `A`.

    Renumbering R → depth ≤ depth' →
      (read file depth).Carries R (read file' depth')     (read_carries)

With equality for `R` this says that more depth changes no finished reading, and with the relation
that always holds that a result depends on neither file nor line.
-/

namespace ModelScript

/-! ## Relations -/

/-- Line numbers that correspond: they still do further down, and so do the later of two. -/
structure Renumbering (R : Nat → Nat → Prop) : Prop where
  add {m n : Nat} (k : Nat) : R m n → R (m + k) (n + k)
  max {m n m' n' : Nat} : R m n → R m' n' → R (Nat.max m m') (Nat.max n n')

theorem Renumbering.eq : Renumbering Eq where
  add k h := by rw [h]
  max h h' := by rw [h, h']

theorem Renumbering.any : Renumbering fun _ _ => True where
  add _ _ := trivial
  max _ _ := trivial

/-- The same problem in corresponding lines. -/
def Fault.Alike (R : Nat → Nat → Prop) (f g : Fault) : Prop :=
  f.problem = g.problem ∧ R f.line g.line

/-- The same event, up to corresponding places. -/
inductive Event.Alike (R : Nat → Nat → Prop) : Event → Event → Prop
  | tokenized (file file' : String) (count : Nat) :
    Alike R (.tokenized file count) (.tokenized file' count)
  | dropped {f g : Fault} (h : f.Alike R g) : Alike R (.dropped f) (.dropped g)

/-- Corresponding outcomes, both finished. -/
inductive Stop.Alike {α β : Type} (R : Nat → Nat → Prop) (A : α → β → Prop) :
    Except Stop α → Except Stop β → Prop
  | ok {a : α} {b : β} (h : A a b) : Alike R A (.ok a) (.ok b)
  | fault {f g : Fault} (h : f.Alike R g) : Alike R A (.error (.fault f)) (.error (.fault g))
  | noList (k : Kind) : Alike R A (.error (.noList k)) (.error (.noList k))

/-- Unless `x` is too deep, `y` does the same in corresponding places. -/
def Reading.Carries {α β : Type} (R : Nat → Nat → Prop) (A : α → β → Prop) (x : Reading α)
    (y : Reading β) : Prop :=
  x.outcome = .error .tooDeep ∨
    (List.Forall₂ (Event.Alike R) x.events y.events ∧ Stop.Alike R A x.outcome y.outcome)

/-- The same result at corresponding lines. -/
def Reached {α : Type} (R : Nat → Nat → Prop) (a b : α × Nat) : Prop := a.1 = b.1 ∧ R a.2 b.2

/-- Readers that carry over wherever their lines correspond. -/
def ExprReader.Carries (R : Nat → Nat → Prop) (r r' : ExprReader) : Prop :=
  ∀ {l l' : Nat} (ts : List Token), R l l' → Reading.Carries R (Reached R) (r l ts) (r' l' ts)

/-! ## Steps -/

namespace Reading

variable {α β γ δ : Type} {R : Nat → Nat → Prop} {A : α → β → Prop} {B : γ → δ → Prop}

theorem Carries.pure {a : α} {b : β} (h : A a b) :
    Carries R A (Pure.pure a) (Pure.pure b) :=
  Or.inr ⟨List.Forall₂.nil, .ok h⟩

theorem Carries.fault {l l' : Nat} (file file' : String) (p : Problem) (h : R l l') :
    Carries R A (Reading.fault file l p) (Reading.fault file' l' p) :=
  Or.inr ⟨List.Forall₂.nil, .fault ⟨rfl, h⟩⟩

theorem Carries.noList (k : Kind) : Carries R A (.fail (.noList k)) (.fail (.noList k)) :=
  Or.inr ⟨List.Forall₂.nil, .noList k⟩

theorem Carries.bind {x : Reading α} {y : Reading β} {f : α → Reading γ} {g : β → Reading δ}
    (h : Carries R A x y) (hf : ∀ a b, A a b → Carries R B (f a) (g b)) :
    Carries R B (x >>= f) (y >>= g) := by
  obtain ⟨ex, ox⟩ := x
  obtain ⟨ey, oy⟩ := y
  rcases h with h | ⟨he, ho⟩
  · cases h
    exact Or.inl rfl
  · cases ho with
    | fault hp => exact Or.inr ⟨he, .fault hp⟩
    | noList k => exact Or.inr ⟨he, .noList k⟩
    | ok ha =>
      rcases hf _ _ ha with h | ⟨he', ho'⟩
      · exact Or.inl h
      · exact Or.inr ⟨List.rel_append he he', ho'⟩

theorem Carries.map {x : Reading α} {y : Reading β} {f : α → γ} {g : β → δ}
    (h : Carries R A x y) (hf : ∀ a b, A a b → B (f a) (g b)) :
    Carries R B (f <$> x) (g <$> y) := by
  rw [map_eq_pure_bind, map_eq_pure_bind]
  exact h.bind fun a b hab => .pure (hf a b hab)

theorem length_warnings_eq {e e' : List Event} (h : List.Forall₂ (Event.Alike R) e e') :
    (e.filter Event.isWarning).length = (e'.filter Event.isWarning).length := by
  induction h with
  | nil => rfl
  | cons h _ ih =>
    cases h with
    | tokenized file file' count => exact ih
    | dropped hf => exact congrArg (· + 1) ih

theorem Carries.yields {x : Reading α} {y : Reading β} (h : Carries R A x y) {n : Nat} {a : α}
    (hx : x.Yields n a) : ∃ b, y.Yields n b ∧ A a b := by
  obtain ⟨ho, rfl⟩ := hx
  obtain ⟨ex, ox⟩ := x
  obtain ⟨ey, oy⟩ := y
  cases ho
  rcases h with h | ⟨he, h⟩
  · cases h
  · cases h with
    | ok ha => exact ⟨_, ⟨rfl, (length_warnings_eq he).symm⟩, ha⟩

theorem Carries.tooDeep_or_yields {x : Reading α} {y : Reading β} (h : Carries R A x y) {n : Nat}
    {b : β} (hy : y.Yields n b) :
    x.outcome = .error .tooDeep ∨ ∃ a, x.Yields n a ∧ A a b := by
  obtain ⟨ho, rfl⟩ := hy
  refine h.imp_right fun ⟨he, h⟩ => ?_
  obtain ⟨ex, ox⟩ := x
  obtain ⟨ey, oy⟩ := y
  cases ho
  cases h with
  | ok ha => exact ⟨_, ⟨rfl, length_warnings_eq he⟩, ha⟩

end Reading

end ModelScript
