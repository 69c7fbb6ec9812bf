import ModelScript.Scope

/-!
# Scopes cut out of token lists

The search for a scope walks over indices; here it is told by the pieces that it cuts.
`Scope.Closes b inner` says that the bracket opened in front of `inner` is closed right behind it,
and a scope is found exactly where a list is put together from such pieces:

    close? … 1 ts = some n ↔ ts = inner ++ closing b :: rest     (close?_eq_some_iff)
    range? … ts 0 = some (i, j) ↔ ts = before ++ enclose b inner ++ rest     (range?_eq_some_iff)
-/

namespace ModelScript

namespace Token

abbrev opening (b : Bracket) : Token := .mark (.opening b)

abbrev closing (b : Bracket) : Token := .mark (.closing b)

/-- Tokens in brackets of a shape. -/
def enclose (b : Bracket) (ts : List Token) : List Token := opening b :: ts ++ [closing b]

theorem enclose_append (b : Bracket) (ts rest : List Token) :
    enclose b ts ++ rest = opening b :: (ts ++ closing b :: rest) := by
  simp [enclose]

theorem length_enclose (b : Bracket) (ts : List Token) :
    (enclose b ts).length = ts.length + 2 := by
  simp [enclose]

theorem getLast?_append_enclose (before : List Token) (b : Bracket) (ts : List Token) :
    (before ++ enclose b ts).getLast? = some (closing b) := by
  rw [enclose, ← List.append_assoc, List.getLast?_concat]

theorem kind_eq_mark_iff (t : Token) (m : Mark) : t.kind = .mark m ↔ t = .mark m := by
  cases t <;> simp [kind]

end Token

namespace Scope

/-- The depth of a shape of bracket falls to zero right behind these tokens, and not before. -/
def Closes (b : Bracket) (inner : List Token) : Prop :=
  close? (.mark (.opening b)) (.mark (.closing b)) 1 (inner ++ [.closing b]) = some inner.length

/-- Where a close is found depends on the tokens up to it alone. -/
theorem close?_append_cons (o c : Kind) (t : Token) (inner rest : List Token) (depth : Nat) :
    close? o c depth (inner ++ t :: rest) = some inner.length ↔
      close? o c depth (inner ++ [t]) = some inner.length := by
  induction inner generalizing depth with
  | nil =>
    simp only [List.nil_append, List.length_nil, close?]
    split
    · simp
    · split
      · split <;> simp
      · simp
  | cons a inner ih =>
    have hs (x : Option Nat) : (· + 1) <$> x = some (inner.length + 1) ↔ x = some inner.length := by
      cases x <;> simp
    simp only [List.cons_append, List.length_cons, close?]
    split
    · rw [hs, hs, ih]
    · split
      · split
        · simp
        · rw [hs, hs, ih]
      · rw [hs, hs, ih]

/-- The token that is found closes the scope. -/
theorem kind_getElem_of_close? {o c : Kind} {ts : List Token} {depth n : Nat}
    (h : close? o c depth ts = some n) : ∃ t, ts[n]? = some t ∧ t.kind = c := by
  induction ts generalizing depth n with
  | nil => cases h
  | cons a ts ih =>
    unfold close? at h
    split at h
    · obtain ⟨m, hm, rfl⟩ := Option.map_eq_some_iff.1 h
      exact ih hm
    · split at h
      · next hc =>
        split at h
        · cases h
          exact ⟨a, rfl, hc⟩
        · obtain ⟨m, hm, rfl⟩ := Option.map_eq_some_iff.1 h
          exact ih hm
      · obtain ⟨m, hm, rfl⟩ := Option.map_eq_some_iff.1 h
        exact ih hm

theorem close?_eq_some_iff (b : Bracket) (ts : List Token) (n : Nat) :
    close? (.mark (.opening b)) (.mark (.closing b)) 1 ts = some n ↔
      ∃ inner rest, ts = inner ++ .closing b :: rest ∧ Closes b inner ∧ n = inner.length := by
  constructor
  · intro h
    have hn := close?_lt h
    obtain ⟨t, ht, hk⟩ := kind_getElem_of_close? h
    obtain rfl := (Token.kind_eq_mark_iff t _).1 hk
    have hts : ts = ts.take n ++ .closing b :: ts.drop (n + 1) := by
      rw [List.getElem?_eq_some_iff] at ht
      obtain ⟨_, ht⟩ := ht
      conv => lhs; rw [← List.take_append_drop n ts, List.drop_eq_getElem_cons hn, ht]
    have hl : (ts.take n).length = n := by rw [List.length_take]; omega
    refine ⟨ts.take n, ts.drop (n + 1), hts, ?_, hl.symm⟩
    rw [hts] at h
    exact (close?_append_cons _ _ _ _ _ 1).1 (by rw [h, hl])
  · rintro ⟨inner, rest, rfl, hc, rfl⟩
    exact (close?_append_cons _ _ _ _ _ 1).2 hc

theorem close?_eq_none_iff (b : Bracket) (ts : List Token) :
    close? (.mark (.opening b)) (.mark (.closing b)) 1 ts = none ↔
      ¬ ∃ inner rest, ts = inner ++ .closing b :: rest ∧ Closes b inner := by
  rw [Option.eq_none_iff_forall_ne_some]
  constructor
  · rintro h ⟨inner, rest, he, hc⟩
    exact h inner.length ((close?_eq_some_iff b ts _).2 ⟨inner, rest, he, hc, rfl⟩)
  · intro h n hn
    obtain ⟨inner, rest, he, hc, -⟩ := (close?_eq_some_iff b ts n).1 hn
    exact h ⟨inner, rest, he, hc⟩

theorem Closes.unique {b : Bracket} {inner inner' rest rest' : List Token} (h : Closes b inner)
    (h' : Closes b inner')
    (he : inner ++ .closing b :: rest = inner' ++ .closing b :: rest') :
    inner = inner' ∧ rest = rest' := by
  have h1 := (close?_append_cons _ _ _ _ rest 1).2 h
  have h2 := (close?_append_cons _ _ _ _ rest' 1).2 h'
  rw [he, h2] at h1
  obtain ⟨rfl, h3⟩ := List.append_inj he (Option.some.inj h1).symm
  exact ⟨rfl, (List.cons.inj h3).2⟩

theorem firstOf?_append_cons (k : Kind) (before rest : List Token) (t : Token)
    (hb : ∀ a ∈ before, a.kind ≠ k) (ht : t.kind = k) :
    firstOf? [k] (before ++ t :: rest) 0 = some before.length := by
  unfold firstOf?
  have h1 : before.findIdx? (fun t => [k].contains t.kind) = none := by
    rw [List.findIdx?_eq_none_iff]
    intro a ha
    simpa using hb a ha
  rw [List.drop_zero, List.findIdx?_append, h1]
  simp [List.findIdx?_cons, ht]

theorem firstOf?_eq_some_iff (k : Kind) (ts : List Token) (i : Nat) :
    firstOf? [k] ts 0 = some i ↔
      ∃ before t rest, ts = before ++ t :: rest ∧ (∀ a ∈ before, a.kind ≠ k) ∧ t.kind = k
        ∧ i = before.length := by
  constructor
  · intro h
    unfold firstOf? at h
    rw [List.drop_zero] at h
    obtain ⟨j, hj, rfl⟩ := Option.map_eq_some_iff.1 h
    rw [List.findIdx?_eq_some_iff_getElem] at hj
    obtain ⟨hlt, hk, hbefore⟩ := hj
    refine ⟨ts.take j, ts[j], ts.drop (j + 1), ?_, ?_, by simpa using hk, ?_⟩
    · rw [← List.drop_eq_getElem_cons hlt, List.take_append_drop]
    · intro a ha
      obtain ⟨m, hm, rfl⟩ := List.mem_take_iff_getElem.1 ha
      have := hbefore m (by omega)
      simpa using this
    · rw [List.length_take]
      show j + 0 = _
      omega
  · rintro ⟨before, t, rest, rfl, hb, ht, rfl⟩
    exact firstOf?_append_cons k before rest t hb ht

theorem range?_eq_some_iff (b : Bracket) (ts : List Token) (i j : Nat) :
    range? (.mark (.opening b)) (.mark (.closing b)) ts 0 = some (i, j) ↔
      ∃ before inner rest, ts = before ++ Token.enclose b inner ++ rest
        ∧ (∀ a ∈ before, a ≠ .opening b) ∧ Closes b inner
        ∧ i = before.length ∧ j = before.length + 1 + inner.length := by
  have hkind (a : Token) : a.kind ≠ .mark (.opening b) ↔ a ≠ .opening b :=
    not_congr (Token.kind_eq_mark_iff a _)
  unfold range?
  constructor
  · intro h
    obtain ⟨first, hf, h⟩ := Option.bind_eq_some_iff.1 h
    obtain ⟨length, hc, h⟩ := Option.bind_eq_some_iff.1 h
    cases h
    obtain ⟨before, t, rest, rfl, hb, ht, rfl⟩ := (firstOf?_eq_some_iff _ _ _).1 hf
    obtain rfl := (Token.kind_eq_mark_iff t _).1 ht
    rw [List.append_cons, List.drop_left' (by simp)] at hc
    obtain ⟨inner, rest', rfl, hcl, rfl⟩ := (close?_eq_some_iff _ _ _).1 hc
    exact ⟨before, inner, rest', by rw [List.append_assoc, Token.enclose_append],
      fun a ha => (hkind a).1 (hb a ha), hcl, rfl, rfl⟩
  · rintro ⟨before, inner, rest, rfl, hb, hc, rfl, rfl⟩
    have hf := firstOf?_append_cons (.mark (.opening b)) before (inner ++ .closing b :: rest)
      (.opening b) (fun a ha => (hkind a).2 (hb a ha)) rfl
    rw [List.append_assoc, Token.enclose_append, hf]
    refine Option.bind_eq_some_iff.2 ⟨_, rfl, ?_⟩
    rw [List.append_cons, List.drop_left' (by simp)]
    exact Option.bind_eq_some_iff.2
      ⟨inner.length, (close?_eq_some_iff _ _ _).2 ⟨inner, rest, rfl, hc, rfl⟩, rfl⟩

end Scope

end ModelScript
