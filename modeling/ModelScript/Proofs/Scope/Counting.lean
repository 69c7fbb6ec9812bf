import ModelScript.Proofs.Scope.Balanced

/-!
# Counting brackets

`Scope.depth scopes ts` counts the tokens that open one of the scopes against those that close one.
The search for separators goes by this depth alone (`separatorsFrom_append`), so a separator is
found exactly where the depth in front of it is zero.

For one shape of bracket the depth is a difference: `unclosed` brackets are left open, and
`unopened` ones are closed though none is open (`unclosed_sub_unopened`).  Where none is left open,
the depth still falls below zero for each bracket that was never opened.  Among well nested tokens
it never does (`WellNested.depth_nonneg`), whatever the scopes are, as long as no two of them share
a kind.
-/

namespace ModelScript.Scope

/-! ## Depth -/

/-- One level up for a token that opens a scope, and one level down for a token that closes one. -/
def step (scopes : List (Kind × Kind)) (t : Token) : Int :=
  if (scopes.map (·.1)).contains t.kind then 1
  else if (scopes.map (·.2)).contains t.kind then -1
  else 0

def depth (scopes : List (Kind × Kind)) : List Token → Int
  | [] => 0
  | t :: ts => step scopes t + depth scopes ts

variable (scopes : List (Kind × Kind))

@[simp] theorem depth_nil : depth scopes [] = 0 := rfl

@[simp] theorem depth_cons (t : Token) (ts : List Token) :
    depth scopes (t :: ts) = step scopes t + depth scopes ts := rfl

@[simp] theorem depth_append (ts us : List Token) :
    depth scopes (ts ++ us) = depth scopes ts + depth scopes us := by
  induction ts with
  | nil => rw [List.nil_append, depth_nil, Int.zero_add]
  | cons t ts ih => rw [List.cons_append, depth_cons, depth_cons, ih, Int.add_assoc]

/-! ## Separators -/

/-- The first token is a separator, or it changes the depth for those behind it. -/
theorem separatorsFrom_cons (separator : Kind) (d : Int) (index : Nat) (t : Token)
    (rest : List Token) :
    separatorsFrom scopes separator d index (t :: rest)
      = (if step scopes t = 0 ∧ t.kind = separator ∧ d = 0 then [index] else [])
        ++ separatorsFrom scopes separator (d + step scopes t) (index + 1) rest := by
  by_cases ho : (scopes.map (·.1)).contains t.kind = true
  · have hstep : step scopes t = 1 := if_pos ho
    rw [separatorsFrom, if_pos ho, hstep, if_neg (fun h => absurd h.1 (by decide)),
      List.nil_append]
  · by_cases hc : (scopes.map (·.2)).contains t.kind = true
    · have hstep : step scopes t = -1 := (if_neg ho).trans (if_pos hc)
      rw [separatorsFrom, if_neg ho, if_pos hc, hstep,
        if_neg (fun h => absurd h.1 (by decide)), List.nil_append]
      rfl
    · have hstep : step scopes t = 0 := (if_neg ho).trans (if_neg hc)
      rw [separatorsFrom, if_neg ho, if_neg hc, hstep, Int.add_zero]
      by_cases hs : t.kind = separator ∧ d = 0
      · rw [if_pos (by simpa using hs), if_pos ⟨rfl, hs⟩, List.singleton_append]
      · rw [if_neg (by simpa using hs), if_neg (fun h => hs h.2), List.nil_append]

/-- The separators behind some tokens are those that are found at the depth behind them. -/
theorem separatorsFrom_append (separator : Kind) (d : Int) (index : Nat) (ts us : List Token) :
    separatorsFrom scopes separator d index (ts ++ us)
      = separatorsFrom scopes separator d index ts
        ++ separatorsFrom scopes separator (d + depth scopes ts) (index + ts.length) us := by
  induction ts generalizing d index with
  | nil => simp [separatorsFrom]
  | cons t ts ih =>
    rw [List.cons_append, separatorsFrom_cons, separatorsFrom_cons, ih, depth_cons,
      List.length_cons, List.append_assoc, Int.add_assoc, Nat.add_right_comm, Nat.add_assoc]

/-- The separators that are found are no brackets, and the depth in front of them is zero. -/
theorem mem_separatorsFrom {separator : Kind} {d : Int} {index i : Nat} {ts : List Token} :
    i ∈ separatorsFrom scopes separator d index ts ↔
      ∃ front t back, ts = front ++ t :: back ∧ i = index + front.length ∧
        t.kind = separator ∧ step scopes t = 0 ∧ d + depth scopes front = 0 := by
  induction ts generalizing d index with
  | nil => simp [separatorsFrom]
  | cons t ts ih =>
    have hhead : i ∈ (if step scopes t = 0 ∧ t.kind = separator ∧ d = 0 then [index] else []) ↔
        i = index ∧ t.kind = separator ∧ step scopes t = 0 ∧ d = 0 := by
      split
      · next h => simp [h]
      · next h => simpa using fun _ hs ht hd => h ⟨ht, hs, hd⟩
    rw [separatorsFrom_cons, List.mem_append, hhead, ih]
    constructor
    · rintro (⟨rfl, hs, ht, hd⟩ | ⟨front, u, back, rfl, rfl, hu⟩)
      · exact ⟨[], t, ts, rfl, rfl, hs, ht, by rw [depth_nil, hd, Int.add_zero]⟩
      · refine ⟨t :: front, u, back, rfl, ?_, ?_⟩
        · rw [List.length_cons]
          omega
        · rwa [depth_cons, ← Int.add_assoc]
    · rintro ⟨front, u, back, h, rfl, hu⟩
      cases front with
      | nil =>
        obtain ⟨rfl, rfl⟩ := List.cons.inj h
        rw [depth_nil, Int.add_zero] at hu
        exact Or.inl ⟨rfl, hu⟩
      | cons v front =>
        obtain ⟨rfl, rfl⟩ := List.cons.inj h
        rw [depth_cons, ← Int.add_assoc] at hu
        refine Or.inr ⟨front, u, back, rfl, ?_, hu⟩
        rw [List.length_cons]
        omega

theorem pairwise_separatorsFrom (separator : Kind) (d : Int) (index : Nat) (ts : List Token) :
    (separatorsFrom scopes separator d index ts).Pairwise (· < ·) := by
  induction ts generalizing d index with
  | nil => exact .nil
  | cons t ts ih =>
    rw [separatorsFrom_cons]
    refine List.pairwise_append.2 ⟨?_, ih _ _, fun i hi j hj => ?_⟩
    · split
      · exact List.pairwise_singleton _ _
      · exact .nil
    · obtain ⟨front, -, -, -, rfl, -⟩ := (mem_separatorsFrom scopes).1 hj
      split at hi
      · rw [List.mem_singleton.1 hi]
        omega
      · cases hi

/-- A separator that is no bracket is found exactly if the depth in front of it is zero. -/
theorem mem_separatorsFrom_iff {separator : Kind} {t : Token} (ht : t.kind = separator)
    (hstep : step scopes t = 0) (front back : List Token) :
    front.length ∈ separatorsFrom scopes separator 0 0 (front ++ t :: back)
      ↔ depth scopes front = 0 := by
  rw [mem_separatorsFrom]
  constructor
  · rintro ⟨front', t', back', h, hlength, -, -, hdepth⟩
    obtain ⟨rfl, -⟩ := List.append_inj h (by omega)
    omega
  · intro h
    exact ⟨front, t, back, rfl, by omega, ht, hstep, by omega⟩

/-! ## Well nested tokens -/

/-- The kinds that open or close one of the scopes. -/
def bracketKinds : List Kind := scopes.map (·.1) ++ scopes.map (·.2)

/-- What opens a scope is closed by the kind that belongs to it, in the order in which the scopes
were opened, and nothing else is closed. -/
inductive WellNested : List Token → Prop
  | nil : WellNested []
  | token {t : Token} {ts : List Token} (ht : t.kind ∉ bracketKinds scopes) (h : WellNested ts) :
    WellNested (t :: ts)
  | scope {o c : Token} {inner ts : List Token} (hs : (o.kind, c.kind) ∈ scopes)
    (hinner : WellNested inner) (h : WellNested ts) : WellNested (o :: inner ++ c :: ts)

section

variable {scopes}

theorem WellNested.append {ts us : List Token} (h : WellNested scopes ts)
    (h' : WellNested scopes us) : WellNested scopes (ts ++ us) := by
  induction h with
  | nil => exact h'
  | token ht _ ih => exact .token ht ih
  | scope hs hinner _ _ ih =>
    rw [List.append_assoc, List.cons_append]
    exact .scope hs hinner ih

theorem mem_bracketKinds {o c : Kind} (h : (o, c) ∈ scopes) :
    o ∈ bracketKinds scopes ∧ c ∈ bracketKinds scopes :=
  ⟨List.mem_append_left _ (List.mem_map_of_mem h), List.mem_append_right _ (List.mem_map_of_mem h)⟩

theorem step_eq_one {o c : Token} (h : (o.kind, c.kind) ∈ scopes) : step scopes o = 1 :=
  if_pos (List.contains_iff_mem.2 (List.mem_map_of_mem h))

theorem step_eq_neg_one (hn : (bracketKinds scopes).Nodup) {o c : Token}
    (h : (o.kind, c.kind) ∈ scopes) : step scopes c = -1 := by
  have hclose : c.kind ∈ scopes.map (·.2) := List.mem_map_of_mem h
  have hopen : c.kind ∉ scopes.map (·.1) := fun ho =>
    (List.nodup_append.1 hn).2.2 _ ho _ hclose rfl
  rw [step, if_neg (by rwa [List.contains_iff_mem]), if_pos (List.contains_iff_mem.2 hclose)]

theorem step_eq_zero {t : Token} (h : t.kind ∉ bracketKinds scopes) : step scopes t = 0 := by
  rw [bracketKinds, List.mem_append, not_or] at h
  rw [step, if_neg (by rw [List.contains_iff_mem]; exact h.1),
    if_neg (by rw [List.contains_iff_mem]; exact h.2)]

variable (hn : (bracketKinds scopes).Nodup) {ts : List Token} (h : WellNested scopes ts)
include hn h

theorem WellNested.depth_eq_zero : depth scopes ts = 0 := by
  induction h with
  | nil => rfl
  | token ht _ ih => rw [depth_cons, step_eq_zero ht, ih, Int.add_zero]
  | scope hs _ _ ihinner ih =>
    rw [depth_append, depth_cons, depth_cons, step_eq_one hs, step_eq_neg_one hn hs, ihinner, ih]
    rfl

theorem WellNested.depth_nonneg {front : List Token} (hf : front <+: ts) :
    0 ≤ depth scopes front := by
  induction h generalizing front with
  | nil =>
    obtain rfl := List.prefix_nil.1 hf
    exact Int.le_refl 0
  | token ht _ ih =>
    rcases List.prefix_cons_iff.1 hf with rfl | ⟨front, rfl, hfront⟩
    · exact Int.le_refl 0
    · have := ih hfront
      rw [depth_cons, step_eq_zero ht]
      omega
  | scope hs hinner _ ihinner ih =>
    rcases List.prefix_cons_iff.1 hf with rfl | ⟨front, rfl, hfront⟩
    · exact Int.le_refl 0
    rw [depth_cons, step_eq_one hs]
    -- the front ends in the scope, at its close or behind it
    obtain ⟨after, hafter⟩ := hfront
    rcases List.append_eq_append_iff.1 hafter with ⟨more, hmore, -⟩ | ⟨back, rfl, hback⟩
    · have := ihinner ⟨more, hmore.symm⟩
      omega
    · rcases List.prefix_cons_iff.1 ⟨after, hback.symm⟩ with rfl | ⟨back, rfl, hlast⟩
      · rw [List.append_nil, hinner.depth_eq_zero hn]
        decide
      · have := ih hlast
        rw [depth_append, depth_cons, hinner.depth_eq_zero hn, step_eq_neg_one hn hs]
        omega

end

/-! ## One shape of bracket -/

/-- How many brackets of a shape are left open behind some tokens, when `n` are open in front of
them.  One that is closed while none is open closes nothing. -/
def unclosed (b : Bracket) : Nat → List Token → Nat
  | n, [] => n
  | n, t :: ts =>
    if t = .opening b then unclosed b (n + 1) ts
    else if t = .closing b then unclosed b (n - 1) ts
    else unclosed b n ts

/-- How many brackets of a shape are closed while none is open, when `n` are open in front of the
tokens. -/
def unopened (b : Bracket) : Nat → List Token → Nat
  | _, [] => 0
  | n, t :: ts =>
    if t = .opening b then unopened b (n + 1) ts
    else if t = .closing b then
      if n = 0 then unopened b 0 ts + 1 else unopened b (n - 1) ts
    else unopened b n ts

/-- The scopes of one shape of bracket. -/
abbrev shape (b : Bracket) : List (Kind × Kind) := [(.mark (.opening b), .mark (.closing b))]

theorem step_shape (b : Bracket) (t : Token) :
    step (shape b) t = if t = .opening b then 1 else if t = .closing b then -1 else 0 := by
  simp [step, Token.kind_eq_mark_iff]

/-- The depth counts the brackets that are left open against those that were never opened. -/
theorem unclosed_sub_unopened (b : Bracket) (n : Nat) (ts : List Token) :
    (unclosed b n ts : Int) - unopened b n ts = n + depth (shape b) ts := by
  fun_induction unopened b n ts with
  | case1 n => simp [unclosed]
  | case2 n ts ih =>
    rw [unclosed, if_pos rfl, ih, depth_cons, step_shape, if_pos rfl]
    omega
  | case3 ts ho ih =>
    rw [unclosed, if_neg ho, if_pos rfl, depth_cons, step_shape, if_neg ho, if_pos rfl,
      Nat.zero_sub]
    omega
  | case4 n ts hn ho ih =>
    rw [unclosed, if_neg ho, if_pos rfl, depth_cons, step_shape, if_neg ho, if_pos rfl]
    omega
  | case5 n t ts ho hc ih =>
    rw [unclosed, if_neg ho, if_neg hc, ih, depth_cons, step_shape, if_neg ho, if_neg hc]
    omega

/-- Parentheses and square brackets are counted together. -/
theorem depth_listScopes (ts : List Token) :
    depth listScopes ts = depth (shape .round) ts + depth (shape .square) ts := by
  induction ts with
  | nil => rfl
  | cons t ts ih =>
    have hstep : step listScopes t = step (shape .round) t + step (shape .square) t := by
      rw [step_shape, step_shape]
      cases t with
      | mark m =>
        cases m with
        | opening b => cases b <;> rfl
        | closing b => cases b <;> rfl
        | _ => rfl
      | _ => rfl
    rw [depth_cons, depth_cons, depth_cons, ih, hstep]
    omega

/-- Where no parentheses and square brackets are left open, the depth is zero unless some have been
closed that were never opened. -/
theorem depth_listScopes_eq_zero_iff {ts : List Token}
    (h : ∀ b, b ≠ .curly → unclosed b 0 ts = 0) :
    depth listScopes ts = 0 ↔ ∀ b, b ≠ .curly → unopened b 0 ts = 0 := by
  have hround := unclosed_sub_unopened .round 0 ts
  have hsquare := unclosed_sub_unopened .square 0 ts
  have hr := h .round (by decide)
  have hs := h .square (by decide)
  rw [depth_listScopes]
  constructor
  · intro hd b hb
    cases b with
    | round => omega
    | square => omega
    | curly => exact absurd rfl hb
  · intro hno
    have hr' := hno .round (by decide)
    have hs' := hno .square (by decide)
    omega

/-! ## Balanced tokens -/

theorem mem_listScopes {b : Bracket} (hb : b ≠ .curly) :
    ((Token.opening b).kind, (Token.closing b).kind) ∈ listScopes := by
  cases b with
  | curly => exact absurd rfl hb
  | _ => decide

theorem not_mem_bracketKinds {t : Token} (ho : ∀ b, t ≠ .opening b) (hc : ∀ b, t ≠ .closing b) :
    t.kind ∉ bracketKinds listScopes := by
  simp [bracketKinds, listScopes, Token.kind_eq_mark_iff, ho, hc]

theorem step_listScopes_opening {b : Bracket} (hb : b ≠ .curly) :
    step listScopes (.opening b) = 1 :=
  step_eq_one (mem_listScopes hb)

theorem step_listScopes_closing {b : Bracket} (hb : b ≠ .curly) :
    step listScopes (.closing b) = -1 :=
  step_eq_neg_one (by decide) (mem_listScopes hb)

theorem step_listScopes_other {t : Token} (ho : ∀ b, t ≠ .opening b) (hc : ∀ b, t ≠ .closing b) :
    step listScopes t = 0 :=
  step_eq_zero (not_mem_bracketKinds ho hc)

/-- Parentheses and square brackets of balanced tokens are well nested. -/
theorem Balanced.wellNested {commas : Bool} {ts : List Token} (h : Balanced commas ts) :
    WellNested listScopes ts := by
  induction h with
  | nil => exact .nil
  | token commas ho hc _ => exact .token (not_mem_bracketKinds ho hc) .nil
  | scope commas hb _ ih => exact .scope (mem_listScopes hb) ih .nil
  | append _ _ ih ih' => exact ih.append ih'

theorem Balanced.depth_nonneg {commas : Bool} {ts : List Token} (h : Balanced commas ts)
    {front : List Token} (hf : front <+: ts) : 0 ≤ depth listScopes front :=
  h.wellNested.depth_nonneg (by decide) hf

end ModelScript.Scope
