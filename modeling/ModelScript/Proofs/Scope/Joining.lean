import ModelScript.Proofs.Scope.Counting

/-!
# Joining at separators

Segments put together with a separator between any two of them, as the arguments of a call are.  A
segment is well nested and has separators inside of its scopes only (`IsSegment`), so the depth is
above zero in front of each of them and zero behind the segment.  The search for separators then
finds the joints and nothing else, and cutting there takes the segments apart again:

    separators? … (before ++ join first rest ++ after) start stop
      = the places of the joints, in ascending order
    cut … start (the places of the joints) = the segments       (separators?_join)
-/

namespace ModelScript.Scope

/-! ## Segments -/

variable (scopes : List (Kind × Kind))

/-- The place `i` of some tokens stands inside of a scope. -/
def Inside (ts : List Token) (i : Nat) : Prop :=
  ∃ before o inner c after, ts = before ++ o :: inner ++ c :: after ∧ (o.kind, c.kind) ∈ scopes ∧
    WellNested scopes inner ∧ before.length < i ∧ i ≤ before.length + inner.length

/-- Well nested tokens that have separators inside of their scopes only. -/
structure IsSegment (separator : Kind) (ts : List Token) : Prop where
  nested : WellNested scopes ts
  inside : ∀ i t, ts[i]? = some t → t.kind = separator → Inside scopes ts i

section

variable {scopes} {separator : Kind} {ts us : List Token} {i : Nat}

theorem Inside.between (h : Inside scopes ts i) (us vs : List Token) :
    Inside scopes (us ++ ts ++ vs) (us.length + i) := by
  obtain ⟨before, o, inner, c, after, rfl, hs, hinner, hlt, hle⟩ := h
  refine ⟨us ++ before, o, inner, c, after ++ vs, by simp, hs, hinner, ?_, ?_⟩
  · rw [List.length_append]
    omega
  · rw [List.length_append]
    omega

theorem IsSegment.nil : IsSegment scopes separator [] where
  nested := .nil
  inside _ _ h := nomatch h

theorem IsSegment.append (h : IsSegment scopes separator ts) (h' : IsSegment scopes separator us) :
    IsSegment scopes separator (ts ++ us) where
  nested := h.nested.append h'.nested
  inside i t ht hk := by
    rcases Nat.lt_or_ge i ts.length with hi | hi
    · rw [List.getElem?_append_left hi] at ht
      simpa using (h.inside i t ht hk).between [] us
    · rw [List.getElem?_append_right hi] at ht
      have := (h'.inside _ t ht hk).between ts []
      rwa [List.append_nil, Nat.add_sub_cancel' hi] at this

theorem IsSegment.token {t : Token} (ht : t.kind ∉ bracketKinds scopes) (hs : t.kind ≠ separator) :
    IsSegment scopes separator [t] where
  nested := .token ht .nil
  inside i u hu hk := by
    cases i with
    | zero => exact absurd (Option.some.inj hu ▸ hk) hs
    | succ i => cases hu

theorem IsSegment.scope (hsep : separator ∉ bracketKinds scopes) {o c : Token}
    (hs : (o.kind, c.kind) ∈ scopes) (h : WellNested scopes ts) :
    IsSegment scopes separator (o :: ts ++ [c]) where
  nested := .scope hs h .nil
  inside i t ht hk := by
    have hopen : o.kind ≠ separator := fun h => hsep (h ▸ (mem_bracketKinds hs).1)
    have hclose : c.kind ≠ separator := fun h => hsep (h ▸ (mem_bracketKinds hs).2)
    cases i with
    | zero => exact absurd (Option.some.inj ht ▸ hk) hopen
    | succ i =>
      rw [List.cons_append, List.getElem?_cons_succ] at ht
      rcases Nat.lt_or_ge i ts.length with hi | hi
      · exact ⟨[], o, ts, c, [], rfl, hs, h, Nat.succ_pos i, by rw [List.length_nil]; omega⟩
      · rw [List.getElem?_append_right hi] at ht
        cases hlast : i - ts.length with
        | zero =>
          rw [hlast] at ht
          exact absurd (Option.some.inj ht ▸ hk) hclose
        | succ j =>
          rw [hlast] at ht
          cases ht

theorem Inside.depth_pos (hn : (bracketKinds scopes).Nodup) (hts : WellNested scopes ts)
    (h : Inside scopes ts i) : 0 < depth scopes (ts.take i) := by
  obtain ⟨before, o, inner, c, after, rfl, hs, hinner, hlt, hle⟩ := h
  obtain ⟨k, rfl⟩ : ∃ k, i = before.length + (k + 1) := ⟨i - before.length - 1, by omega⟩
  have hprefix : before <+: before ++ o :: inner ++ c :: after :=
    (List.prefix_append before _).trans (List.prefix_append _ _)
  have hbefore := hts.depth_nonneg hn hprefix
  have hpart := hinner.depth_nonneg hn (List.take_prefix k inner)
  have htake : (before ++ o :: inner ++ c :: after).take (before.length + (k + 1))
      = before ++ o :: inner.take k := by
    rw [List.append_assoc, List.take_length_add_append, List.cons_append, List.take_succ_cons,
      List.take_append_of_le_length (by omega)]
  rw [htake, depth_append, depth_cons, step_eq_one hs]
  omega

theorem IsSegment.separatorsFrom_eq_nil (hn : (bracketKinds scopes).Nodup)
    (h : IsSegment scopes separator ts) (index : Nat) :
    separatorsFrom scopes separator 0 index ts = [] := by
  refine List.eq_nil_iff_forall_not_mem.2 fun j hj => ?_
  obtain ⟨front, t, back, rfl, -, hk, -, hdepth⟩ := (mem_separatorsFrom scopes).1 hj
  have hpos := (h.inside front.length t (by simp) hk).depth_pos hn h.nested
  rw [List.take_left] at hpos
  omega

end

/-! ## Joining -/

/-- Segments one after the other, each but the first one behind the token that joins it. -/
def join (first : List Token) (rest : List (Token × List Token)) : List Token :=
  first ++ rest.flatMap fun p => p.1 :: p.2

/-- Where the joining tokens stand, when the first segment begins at `start`: each stands right
behind the segments in front of it. -/
def joints (start : Nat) (first : List Token) (rest : List (Token × List Token)) : List Nat :=
  (List.range rest.length).map fun k => start + (join first (rest.take k)).length

theorem join_nil (first : List Token) : join first [] = first := List.append_nil first

theorem join_cons (first : List Token) (p : Token × List Token) (rest : List (Token × List Token)) :
    join first (p :: rest) = first ++ p.1 :: join p.2 rest := by
  simp [join]

theorem joints_cons (start : Nat) (first : List Token) (p : Token × List Token)
    (rest : List (Token × List Token)) :
    joints start first (p :: rest)
      = (start + first.length) :: joints (start + first.length + 1) p.2 rest := by
  unfold joints
  rw [List.length_cons, List.range_succ_eq_map, List.map_cons, List.map_map, List.take_zero,
    join_nil]
  congr 2
  funext k
  simp only [Function.comp_apply, List.take_succ_cons, join_cons, List.length_append,
    List.length_cons]
  omega

section

variable {scopes} {separator : Kind} (hn : (bracketKinds scopes).Nodup)
  (hsep : separator ∉ bracketKinds scopes)
include hn hsep

/-- The search finds the joints of segments, and no other separator. -/
theorem separatorsFrom_join (start : Nat) {first : List Token} {rest : List (Token × List Token)}
    (hfirst : IsSegment scopes separator first)
    (hrest : ∀ p ∈ rest, p.1.kind = separator ∧ IsSegment scopes separator p.2) :
    separatorsFrom scopes separator 0 start (join first rest) = joints start first rest := by
  induction rest generalizing start first with
  | nil =>
    rw [join_nil, hfirst.separatorsFrom_eq_nil hn]
    rfl
  | cons p rest ih =>
    obtain ⟨hk, hp⟩ := hrest p List.mem_cons_self
    have hstep : step scopes p.1 = 0 := step_eq_zero (hk ▸ hsep)
    rw [join_cons, joints_cons, separatorsFrom_append, hfirst.separatorsFrom_eq_nil hn,
      hfirst.nested.depth_eq_zero hn, List.nil_append, separatorsFrom_cons, hstep,
      if_pos ⟨rfl, hk, rfl⟩, List.singleton_append, ← ih _ hp fun q hq =>
        hrest q (List.mem_cons_of_mem p hq)]
    rfl

end

/-- Cutting at the joints takes the segments apart. -/
theorem cut_joints (before first : List Token) (rest : List (Token × List Token)) :
    cut (before ++ join first rest) before.length (joints before.length first rest)
      = first :: rest.map (·.2) := by
  induction rest generalizing before first with
  | nil =>
    show [List.drop _ _] = _
    rw [List.drop_left, join_nil, List.map_nil]
  | cons p rest ih =>
    have hpiece : ((before ++ join first (p :: rest)).take (before.length + first.length)).drop
        before.length = first := by
      rw [List.take_length_add_append, List.drop_left, join_cons, List.take_left]
    have hbehind :
        before ++ join first (p :: rest) = (before ++ first ++ [p.1]) ++ join p.2 rest := by
      simp [join_cons]
    have hlength : (before ++ first ++ [p.1]).length = before.length + first.length + 1 := by
      rw [List.length_append, List.length_append, List.length_singleton]
    rw [joints_cons, cut, hpiece, hbehind, ← hlength, ih, List.map_cons]

/-- Splitting at the separators outside of all scopes undoes joining: behind any tokens and in front
of any tokens, the separators found between segments are the joints, in ascending order, and cutting
there gives the segments.  No two scopes share a kind, and the separator opens and closes none. -/
theorem separators?_join {separator : Kind} (hn : (bracketKinds scopes).Nodup)
    (hsep : separator ∉ bracketKinds scopes) (before after : List Token) {first : List Token}
    {rest : List (Token × List Token)} (hfirst : IsSegment scopes separator first)
    (hrest : ∀ p ∈ rest, p.1.kind = separator ∧ IsSegment scopes separator p.2) :
    let tokens := before ++ join first rest ++ after
    let start := before.length
    let stop := start + (join first rest).length
    separators? scopes separator tokens start stop = some (joints start first rest) ∧
      (joints start first rest).Pairwise (· < ·) ∧
      cut (tokens.take stop) start (joints start first rest) = first :: rest.map (·.2) := by
  intro tokens start stop
  have hfound := separatorsFrom_join hn hsep start hfirst hrest
  have htake : tokens.take stop = before ++ join first rest := by
    show (before ++ join first rest ++ after).take (before.length + (join first rest).length) = _
    rw [← List.length_append, List.take_left]
  refine ⟨?_, ?_, ?_⟩
  · have hstop : ¬ (start < stop && tokens.length < stop) = true := by
      have : stop ≤ tokens.length := by simp [tokens, stop, start]
      simp only [Bool.and_eq_true, decide_eq_true_eq, not_and]
      omega
    rw [separators?, if_neg hstop, htake, List.drop_left, hfound]
  · rw [← hfound]
    exact pairwise_separatorsFrom scopes separator 0 start _
  · rw [htake]
    exact cut_joints before first rest

/-- The list of a call with separators in its elements, and its three commas. -/
theorem separators?_join_call :
    let a : Token := .ident "a"
    let comma : Token := .mark .comma
    let first := [a]
    let second := [.ident "f"] ++ Token.enclose .round [.ident "b", comma, .ident "c"]
    let third := Token.enclose .square [.ident "d", comma, .ident "e"]
    let rest := [(comma, second), (comma, third), (comma, [])]
    separators? listScopes (.mark .comma) ([Token.opening .round] ++ join first rest ++
      [Token.closing .round]) 1 (1 + (join first rest).length) = some [2, 9, 15] ∧
    cut (([Token.opening .round] ++ join first rest ++ [Token.closing .round]).take
      (1 + (join first rest).length)) 1 [2, 9, 15] = [first, second, third, []] := by
  intro a comma first second third rest
  have hsep : Kind.mark .comma ∉ bracketKinds listScopes := by decide
  have hident (name : String) : (Token.ident name).kind ∉ bracketKinds listScopes := by
    simp [bracketKinds, listScopes, Token.kind]
  have hname (name : String) : IsSegment listScopes (.mark .comma) [.ident name] :=
    .token (hident name) (by simp [Token.kind])
  have hpair (x y : String) : WellNested listScopes [.ident x, comma, .ident y] :=
    .token (hident x) (.token hsep (.token (hident y) .nil))
  have hsecond : IsSegment listScopes (.mark .comma) second :=
    (hname "f").append (.scope hsep (by decide) (hpair "b" "c"))
  have hthird : IsSegment listScopes (.mark .comma) third :=
    .scope hsep (by decide) (hpair "d" "e")
  have hrest : ∀ p ∈ rest, p.1.kind = .mark .comma ∧ IsSegment listScopes (.mark .comma) p.2 := by
    simp [rest, comma, Token.kind, hsecond, hthird, IsSegment.nil]
  obtain ⟨hfound, -, hcut⟩ := separators?_join listScopes (by decide) hsep [Token.opening .round]
    [Token.closing .round] (hname "a") hrest
  exact ⟨hfound, hcut⟩

end ModelScript.Scope
