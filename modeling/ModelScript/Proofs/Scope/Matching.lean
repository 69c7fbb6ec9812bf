import ModelScript.Proofs.Scope.Closing
import ModelScript.Proofs.Scope.Level

/-!
# Matching brackets

The scope that is found from a place on, told by counting.  It begins at the first opening token,
and it ends at the first place up to which there are as many closing tokens as opening ones,
whatever stands in front of the scope or is left open behind it:

    range? o c ts start = some (i, j)
      ↔ IsLeast (places o ts start) i ∧ IsLeast (evenPlaces o c ts i) j

Scopes that are found from different places never cross: one that begins inside of another ends
inside of it (`range?_lt_or_lt`).  All of this holds of any two kinds of token (`range?_matches`).
-/

namespace ModelScript.Scope

/-! ## Places -/

/-- The places from `start` on of the tokens of a kind. -/
def places (k : Kind) (ts : List Token) (start : Nat) : Set Nat :=
  {i | start ≤ i ∧ ∃ t, ts[i]? = some t ∧ t.kind = k}

/-- The places behind `i` up to which there are, from `i` on, as many tokens of one kind as of
another. -/
abbrev evenPlaces (o c : Kind) (ts : List Token) (i : Nat) : Set Nat :=
  Level.evenPlaces (fun t : Token => t.kind = o) (fun t : Token => t.kind = c) ts i

variable {o c k : Kind} {ts : List Token} {start i j : Nat}

theorem firstOf?_eq_some_iff_isLeast :
    firstOf? [k] ts start = some i ↔ IsLeast (places k ts start) i := by
  unfold firstOf?
  rw [Option.map_eq_map, Option.map_eq_some_iff]
  constructor
  · rintro ⟨m, hm, rfl⟩
    obtain ⟨hlt, hk, hbefore⟩ := List.findIdx?_eq_some_iff_getElem.mp hm
    rw [List.length_drop] at hlt
    rw [List.getElem_drop] at hk
    refine ⟨⟨by omega, ts[start + m], ?_, by simpa using hk⟩, ?_⟩
    · rw [Nat.add_comm, List.getElem?_eq_getElem]
    · rintro n ⟨hn, t, ht, hkind⟩
      by_contra hlt'
      have hnone := hbefore (n - start) (by omega)
      obtain ⟨hn', rfl⟩ := List.getElem?_eq_some_iff.mp ht
      have hplace : start + (n - start) = n := by omega
      simp [List.getElem_drop, hplace, hkind] at hnone
  · rintro ⟨⟨hle, t, ht, hkind⟩, hleast⟩
    obtain ⟨hi, rfl⟩ := List.getElem?_eq_some_iff.mp ht
    have hplace : start + (i - start) = i := by omega
    refine ⟨i - start, List.findIdx?_eq_some_iff_getElem.mpr ⟨?_, ?_, ?_⟩, by omega⟩
    · rw [List.length_drop]
      omega
    · simp [List.getElem_drop, hplace, hkind]
    · intro n hn
      rw [List.getElem_drop]
      intro hk
      have hmem : start + n ∈ places k ts start :=
        ⟨by omega, _, List.getElem?_eq_getElem (by omega), by simpa using hk⟩
      have := hleast hmem
      omega

/-! ## Scopes -/

/-- The search for a close waits for the level to fall to zero. -/
theorem close?_eq_firstZero? (o c : Kind) {d : Nat} (hd : 1 ≤ d) (ts : List Token) :
    close? o c d ts
      = Level.firstZero? (fun t : Token => t.kind = o) (fun t : Token => t.kind = c) d ts := by
  refine Level.eq_firstZero? (fun d => rfl) ?_ ?_ ?_ hd ts
  · intro d t ts ho
    rw [close?, if_pos (of_decide_eq_true ho)]
  · intro d t ts ho hc
    rw [close?, if_neg (of_decide_eq_false ho), if_pos (of_decide_eq_true hc)]
  · intro d t ts ho hc
    rw [close?, if_neg (of_decide_eq_false ho), if_neg (of_decide_eq_false hc)]

section

variable (h : o ≠ c)
include h

theorem not_closes_of_opens (t : Token) (ho : decide (t.kind = o) = true) :
    decide (t.kind = c) = false := by
  rw [of_decide_eq_true ho]
  exact decide_eq_false h

theorem range?_eq_some_iff_isLeast : range? o c ts start = some (i, j) ↔
    IsLeast (places o ts start) i ∧ IsLeast (evenPlaces o c ts i) j := by
  unfold range?
  constructor
  · intro hr
    obtain ⟨first, hfirst, hr⟩ := Option.bind_eq_some_iff.mp hr
    obtain ⟨n, hn, hr⟩ := Option.bind_eq_some_iff.mp hr
    cases hr
    have hleast := firstOf?_eq_some_iff_isLeast.mp hfirst
    obtain ⟨-, t, ht, ho⟩ := hleast.1
    rw [close?_eq_firstZero? o c (Nat.le_refl 1)] at hn
    exact ⟨hleast, (Level.isLeast_evenPlaces_iff (not_closes_of_opens h) ht
      (decide_eq_true ho)).mpr ⟨n, rfl, hn⟩⟩
  · rintro ⟨hfirst, hlast⟩
    obtain ⟨-, t, ht, ho⟩ := hfirst.1
    obtain ⟨n, rfl, hn⟩ := (Level.isLeast_evenPlaces_iff (not_closes_of_opens h) ht
      (decide_eq_true ho)).mp hlast
    rw [← Int.natCast_one, ← close?_eq_firstZero? o c (Nat.le_refl 1)] at hn
    exact Option.bind_eq_some_iff.mpr ⟨i, firstOf?_eq_some_iff_isLeast.mpr hfirst,
      Option.bind_eq_some_iff.mpr ⟨n, hn, rfl⟩⟩

theorem range?_eq_none_iff : range? o c ts start = none ↔
    places o ts start = ∅ ∨ ∃ i, IsLeast (places o ts start) i ∧ evenPlaces o c ts i = ∅ := by
  constructor
  · intro hr
    rcases Set.eq_empty_or_nonempty (places o ts start) with hempty | hplaces
    · exact Or.inl hempty
    have hfirst := isLeast_csInf hplaces
    refine Or.inr ⟨_, hfirst, ?_⟩
    by_contra hne
    have hlast := isLeast_csInf (Set.nonempty_iff_ne_empty.mpr hne)
    rw [(range?_eq_some_iff_isLeast h).mpr ⟨hfirst, hlast⟩] at hr
    cases hr
  · intro hnone
    cases hr : range? o c ts start with
    | none => rfl
    | some range =>
      obtain ⟨hfirst, hlast⟩ := (range?_eq_some_iff_isLeast h).mp hr
      rcases hnone with hempty | ⟨i, hi, hempty⟩
      · exact absurd hempty (Set.Nonempty.ne_empty ⟨_, hfirst.1⟩)
      · rw [← hfirst.unique hi] at hempty
        exact absurd hempty (Set.Nonempty.ne_empty ⟨_, hlast.1⟩)

/-- Of two scopes the one that begins later begins behind the other or ends inside of it. -/
theorem range?_lt_or_lt {start' i' j' : Nat} (hr : range? o c ts start = some (i, j))
    (hr' : range? o c ts start' = some (i', j')) (hlt : i < i') : j < i' ∨ j' < j := by
  obtain ⟨hfirst, hlast⟩ := (range?_eq_some_iff_isLeast h).mp hr
  obtain ⟨hfirst', hlast'⟩ := (range?_eq_some_iff_isLeast h).mp hr'
  obtain ⟨-, t, ht, ho⟩ := hfirst.1
  obtain ⟨-, t', ht', ho'⟩ := hfirst'.1
  by_cases hapart : j < i'
  · exact Or.inl hapart
  · obtain ⟨k, hk, hinside⟩ := Level.exists_evenPlace_lt (not_closes_of_opens h) ht
      (decide_eq_true ho) hlast ht' (decide_eq_true ho') hlt (Nat.not_lt.mp hapart)
    exact Or.inr (Nat.lt_of_le_of_lt (hlast'.2 hk) hinside)

/-- The scope that is found from a place on begins at the first opening token there and ends at the
first place up to which opening and closing tokens are even; none is found exactly if there is no
such token or no such place.  Two scopes that are found are the same, or apart, or one of them is
inside of the other. -/
theorem range?_matches (ts : List Token) :
    (∀ start i j, range? o c ts start = some (i, j) ↔
        IsLeast (places o ts start) i ∧ IsLeast (evenPlaces o c ts i) j) ∧
      (∀ start, range? o c ts start = none ↔
        places o ts start = ∅ ∨
          ∃ i, IsLeast (places o ts start) i ∧ evenPlaces o c ts i = ∅) ∧
      ∀ start start' i j i' j', range? o c ts start = some (i, j) →
        range? o c ts start' = some (i', j') →
          (i, j) = (i', j') ∨ (j < i' ∨ j' < i) ∨ (i < i' ∧ j' < j ∨ i' < i ∧ j < j') := by
  refine ⟨fun start i j => range?_eq_some_iff_isLeast h, fun start => range?_eq_none_iff h, ?_⟩
  intro start start' i j i' j' hr hr'
  rcases Nat.lt_trichotomy i i' with hlt | rfl | hlt
  · rcases range?_lt_or_lt h hr hr' hlt with hapart | hinside
    · exact Or.inr (Or.inl (Or.inl hapart))
    · exact Or.inr (Or.inr (Or.inl ⟨hlt, hinside⟩))
  · have hlast := ((range?_eq_some_iff_isLeast h).mp hr).2
    have hlast' := ((range?_eq_some_iff_isLeast h).mp hr').2
    exact Or.inl (by rw [hlast.unique hlast'])
  · rcases range?_lt_or_lt h hr' hr hlt with hapart | hinside
    · exact Or.inr (Or.inl (Or.inr hapart))
    · exact Or.inr (Or.inr (Or.inr ⟨hlt, hinside⟩))

end

/-- Behind a stray closer a scope with another one in it, and a bracket that is left open. -/
theorem range?_matches_stray :
    let o : Kind := .mark (.opening .round)
    let c : Kind := .mark (.closing .round)
    let ts : List Token := [.closing .round, .opening .round, .opening .round, .closing .round,
      .closing .round, .opening .round]
    o ≠ c ∧ IsLeast (evenPlaces o c ts 1) 4 ∧ IsLeast (evenPlaces o c ts 2) 3 ∧
      evenPlaces o c ts 5 = ∅ := by
  intro o c ts
  have h : o ≠ c := by decide
  obtain ⟨hsome, hnone, -⟩ := range?_matches h ts
  obtain ⟨-, houter⟩ := (hsome 0 1 4).mp rfl
  obtain ⟨-, hinner⟩ := (hsome 2 2 3).mp rfl
  have hfirst : IsLeast (places o ts 5) 5 :=
    ⟨⟨Nat.le_refl 5, _, rfl, rfl⟩, fun i hi => hi.1⟩
  refine ⟨h, houter, hinner, ?_⟩
  rcases (hnone 5).mp rfl with hempty | ⟨i, hi, hempty⟩
  · exact absurd hempty (Set.Nonempty.ne_empty ⟨_, hfirst.1⟩)
  · rwa [hfirst.unique hi]

end ModelScript.Scope
