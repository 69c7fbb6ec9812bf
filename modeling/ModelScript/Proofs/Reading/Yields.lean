import ModelScript.Reading

/-!
# Results and their warnings

`x.Yields n a` says that the logged computation `x` gives `a` and warns `n` times on the way.  A
computation that is put together yields what its parts yield, and the warnings add up, so a
successful run is taken apart step by step:

    (x >>= f).Yields n b ↔ ∃ m k a, x.Yields m a ∧ (f a).Yields k b ∧ n = m + k     (yields_bind)
-/

namespace ModelScript.Logged

variable {ε α β : Type}

/-- The computation gives `a`, and warns `n` times on the way. -/
def Yields (x : Logged ε α) (n : Nat) (a : α) : Prop :=
  x.outcome = .ok a ∧ x.warnings.length = n

theorem yields_pure (a b : α) (n : Nat) : (pure a : Logged ε α).Yields n b ↔ n = 0 ∧ b = a := by
  unfold Yields warnings
  rw [pure_def]
  constructor
  · rintro ⟨h, rfl⟩
    cases h
    exact ⟨rfl, rfl⟩
  · rintro ⟨rfl, rfl⟩
    exact ⟨rfl, rfl⟩

/-- What a reader returns is a value and a point to go on from. -/
theorem yields_pure_pair (a a' : α) (b b' : β) (n : Nat) :
    (pure (a, b) : Logged ε (α × β)).Yields n (a', b') ↔ n = 0 ∧ a' = a ∧ b' = b := by
  rw [yields_pure, Prod.mk.injEq]

theorem not_yields_fail (e : ε) (n : Nat) (a : α) : ¬ (fail e : Logged ε α).Yields n a := by
  rintro ⟨h, -⟩
  cases h

theorem not_yields_fault (file : String) (line : Nat) (p : Problem) (n : Nat) (a : α) :
    ¬ (Reading.fault file line p : Reading α).Yields n a :=
  not_yields_fail _ n a

theorem warnings_ok (events : List Event) (a : α) (f : α → Logged ε β) :
    ((⟨events, .ok a⟩ : Logged ε α).andThen f).warnings
      = events.filter Event.isWarning ++ (f a).warnings := by
  unfold warnings
  rw [andThen_ok, List.filter_append]

/-- A computation yields what its second part does with the result of its first. -/
theorem yields_bind (x : Logged ε α) (f : α → Logged ε β) (n : Nat) (b : β) :
    (x >>= f).Yields n b ↔ ∃ m k a, x.Yields m a ∧ (f a).Yields k b ∧ n = m + k := by
  rw [bind_def]
  obtain ⟨events, outcome⟩ := x
  cases outcome with
  | error e =>
    constructor
    · rintro ⟨h, -⟩
      cases h
    · rintro ⟨m, k, a, ⟨h, -⟩, -⟩
      cases h
  | ok a =>
    constructor
    · rintro ⟨h, rfl⟩
      refine ⟨_, _, a, ⟨rfl, rfl⟩, ⟨h, rfl⟩, ?_⟩
      rw [warnings_ok, List.length_append]
      rfl
    · rintro ⟨m, k, a', ⟨h, rfl⟩, ⟨h', rfl⟩, rfl⟩
      cases h
      refine ⟨h', ?_⟩
      rw [warnings_ok, List.length_append]
      rfl

theorem yields_map (x : Logged ε α) (f : α → β) (n : Nat) (b : β) :
    (f <$> x).Yields n b ↔ ∃ a, x.Yields n a ∧ b = f a := by
  rw [map_eq_pure_bind, yields_bind]
  constructor
  · rintro ⟨m, k, a, h, h', rfl⟩
    obtain ⟨rfl, rfl⟩ := (yields_pure _ _ _).1 h'
    exact ⟨a, h, rfl⟩
  · rintro ⟨a, h, rfl⟩
    exact ⟨n, 0, a, h, (yields_pure _ _ _).2 ⟨rfl, rfl⟩, rfl⟩

theorem Yields.bind {x : Logged ε α} {f : α → Logged ε β} {m k : Nat} {a : α} {b : β}
    (h : x.Yields m a) (h' : (f a).Yields k b) : (x >>= f).Yields (m + k) b :=
  (yields_bind x f _ b).2 ⟨m, k, a, h, h', rfl⟩

theorem Yields.bind_zero {x : Logged ε α} {f : α → Logged ε β} {k : Nat} {a : α} {b : β}
    (h : x.Yields 0 a) (h' : (f a).Yields k b) : (x >>= f).Yields k b :=
  Nat.zero_add k ▸ h.bind h'

/-- No warning stands before a result without warnings. -/
theorem yields_bind_zero (x : Logged ε α) (f : α → Logged ε β) (b : β) :
    (x >>= f).Yields 0 b ↔ ∃ a, x.Yields 0 a ∧ (f a).Yields 0 b := by
  constructor
  · intro h
    obtain ⟨m, k, a, ha, hb, hn⟩ := (yields_bind x f 0 b).1 h
    obtain ⟨rfl, rfl⟩ := Nat.add_eq_zero_iff.1 hn.symm
    exact ⟨a, ha, hb⟩
  · rintro ⟨a, ha, hb⟩
    exact ha.bind_zero hb

/-- Only what follows a result matters. -/
theorem bind_congr_of_ok {x : Logged ε α} {f g : α → Logged ε β}
    (h : ∀ a, x.outcome = .ok a → f a = g a) : x >>= f = x >>= g := by
  obtain ⟨events, outcome⟩ := x
  rw [bind_def, bind_def]
  cases outcome with
  | error e => rfl
  | ok a => rw [andThen_ok, andThen_ok, h a rfl]

/-- A computation has one result. -/
theorem Yields.unique {x : Logged ε α} {m k : Nat} {a b : α} (h : x.Yields m a)
    (h' : x.Yields k b) : a = b ∧ m = k := by
  obtain ⟨h1, rfl⟩ := h
  obtain ⟨h2, rfl⟩ := h'
  exact ⟨by rw [h1] at h2; injection h2, rfl⟩

end ModelScript.Logged
