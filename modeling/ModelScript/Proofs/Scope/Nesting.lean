import ModelScript.Proofs.Scope.Closing

/-!
# Nesting

Whether brackets of all shapes together are closed in the order in which they were opened, decided
with a stack of the brackets that are open (`nested`), and the emptying of scopes:
`Emptied drops ts us` says that `us` is left of `ts` when `drops`, each between parentheses or square
brackets, are deleted.
-/

namespace ModelScript.Scope

open Token (enclose)

/-! ## Nesting -/

/-- Each closing bracket has the shape of the bracket opened last, and none is left open; `stack`
holds the brackets that are open, the last one first. -/
def nestedIn : List Bracket → List Token → Bool
  | stack, [] => stack.isEmpty
  | stack, .mark (.opening b) :: ts => nestedIn (b :: stack) ts
  | [], .mark (.closing _) :: _ => false
  | b' :: stack, .mark (.closing b) :: ts => b' = b && nestedIn stack ts
  | stack, _ :: ts => nestedIn stack ts

/-- All brackets are closed in the order in which they were opened. -/
def nested (ts : List Token) : Bool := nestedIn [] ts

/-- Whatever is open, these tokens leave it open. -/
def Neutral (ts : List Token) : Prop :=
  ∀ stack rest, nestedIn stack (ts ++ rest) = nestedIn stack rest

theorem Neutral.nested {ts : List Token} (h : Neutral ts) : nested ts = true := by
  have := h [] []
  rwa [List.append_nil] at this

theorem Neutral.nil : Neutral [] := fun _ _ => rfl

theorem Neutral.token {t : Token} (ho : ∀ b, t ≠ .opening b) (hc : ∀ b, t ≠ .closing b) :
    Neutral [t] := by
  intro stack rest
  rw [List.singleton_append]
  cases t with
  | mark m =>
    cases m with
    | opening b => exact absurd rfl (ho b)
    | closing b => exact absurd rfl (hc b)
    | _ => cases stack <;> rfl
  | _ => cases stack <;> rfl

theorem Neutral.append {ts us : List Token} (h : Neutral ts) (h' : Neutral us) :
    Neutral (ts ++ us) := by
  intro stack rest
  rw [List.append_assoc, h, h']

theorem Neutral.enclose (b : Bracket) {ts : List Token} (h : Neutral ts) :
    Neutral (enclose b ts) := by
  intro stack rest
  rw [Token.enclose_append, nestedIn, h]
  simp [nestedIn]

/-! ## Emptied scopes -/

/-- What is left when the contents of some parentheses or square brackets are deleted. -/
inductive Emptied : List (List Token) → List Token → List Token → Prop
  | none (ts : List Token) : Emptied [] ts ts
  | scope {drops : List (List Token)} {b : Bracket} {before inner after us : List Token}
    (hb : b ≠ .curly) (hc : Closes b inner)
    (h : Emptied drops (before ++ enclose b [] ++ after) us) :
    Emptied (inner :: drops) (before ++ enclose b inner ++ after) us

variable {drops drops' : List (List Token)} {ts us ts' us' vs : List Token}

theorem Emptied.singleton {b : Bracket} (hb : b ≠ .curly) (hc : Closes b ts) :
    Emptied [ts] (enclose b ts) (enclose b []) := by
  have h : Emptied [ts] ([] ++ enclose b ts ++ []) ([] ++ enclose b [] ++ []) :=
    .scope hb hc (.none _)
  simpa using h

theorem Emptied.between (h : Emptied drops ts us) (before after : List Token) :
    Emptied drops (before ++ ts ++ after) (before ++ us ++ after) := by
  induction h with
  | none => exact .none _
  | @scope drops b before' inner after' us hb hc h ih =>
    have hshape (ts : List Token) : before ++ (before' ++ enclose b ts ++ after') ++ after
        = (before ++ before') ++ enclose b ts ++ (after' ++ after) := by simp
    rw [hshape] at ih ⊢
    exact .scope hb hc ih

theorem Emptied.trans (h : Emptied drops ts us) (h' : Emptied drops' us vs) :
    Emptied (drops ++ drops') ts vs := by
  induction h with
  | none => exact h'
  | scope hb hc _ ih => exact .scope hb hc (ih h')

theorem Emptied.append (h : Emptied drops ts us) (h' : Emptied drops' ts' us') :
    Emptied (drops ++ drops') (ts ++ ts') (us ++ us') := by
  have h1 := h.between [] ts'
  have h2 := h'.between us []
  rw [List.nil_append, List.nil_append] at h1
  rw [List.append_nil, List.append_nil] at h2
  exact h1.trans h2

theorem Emptied.subset (h : Emptied drops ts us) : us ⊆ ts := by
  induction h with
  | none ts => exact List.Subset.refl ts
  | @scope drops b before inner after us hb hc h ih =>
    refine List.Subset.trans ih fun t ht => ?_
    simp only [enclose, List.mem_append, List.mem_cons, List.not_mem_nil, or_false] at ht ⊢
    exact ht.imp_left (Or.imp_right (Or.imp_left Or.inl))

end ModelScript.Scope
