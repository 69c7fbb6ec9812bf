import ModelScript.Proofs.Context.Schema

/-!
# Records and the nodes that they stand for

`Value.Occurs fields v` says that a record with these fields occurs in a value, at whatever depth,
and `Node.Within m n` that a node stands in a tree.  The records in the context of a tree are the
contexts of the nodes in it (`Node.occurs_context_iff`), so what every node's own record is like,
every record of a context is like.
-/

namespace ModelScript

/-! ## What occurs where -/

/-- A record that occurs in a value. -/
inductive Value.Occurs (fields : List (String × Value)) : Value → Prop
  | here : Occurs fields (.record fields)
  | item {items : List Value} {v : Value} (hv : v ∈ items) (h : Occurs fields v) :
    Occurs fields (.list items)
  | field {others : List (String × Value)} {f : String × Value} (hf : f ∈ others)
    (h : Occurs fields f.2) : Occurs fields (.record others)

/-- A node that stands in a tree. -/
inductive Node.Within (m : Node) : Node → Prop
  | here : Within m m
  | child {c n : Node} (hc : c ∈ n.children) (h : Within m c) : Within m n

variable {fields : List (String × Value)} {separators : Separators}

theorem Value.field?_eq_none {name : String} (h : ∀ f ∈ fields, f.1 ≠ name) :
    Value.field? name fields = none := by
  induction fields with
  | nil => rfl
  | cons f rest ih =>
    obtain ⟨hf, hrest⟩ := List.forall_mem_cons.mp h
    rw [Value.field?, if_neg hf, ih hrest]

/-! ## The records of a context -/

theorem Value.not_occurs_text (s : String) : ¬ Occurs fields (.text s) := nofun

theorem Modifiers.exists_text {m : Modifiers} {items : List Value} (h : m.context = .list items) :
    ∀ v ∈ items, ∃ s, v = .text s := by
  obtain ⟨isPrivate, isStatic⟩ := m
  cases h
  cases isPrivate <;> cases isStatic <;> simp

namespace Content

/-- A record occurs in what a field holds if it occurs in the context of a node there. -/
theorem occurs_value_iff {content : Content} :
    Value.Occurs fields (content.value separators)
      ↔ ∃ c ∈ content.children, Value.Occurs fields (c.context separators) := by
  cases content with
  | text s => exact ⟨nofun, nofun⟩
  | node n => simp [children, value]
  | nodes ns =>
    constructor
    · intro h
      cases h with
      | item hv h =>
        obtain ⟨c, hc, rfl⟩ := List.mem_map.mp hv
        exact ⟨c, hc, h⟩
    · rintro ⟨c, hc, h⟩
      exact .item (List.mem_map_of_mem hc) h
  | modifiers m =>
    constructor
    · intro h
      cases h with
      | item hv h =>
        obtain ⟨s, rfl⟩ := Modifiers.exists_text rfl _ hv
        exact absurd h (Value.not_occurs_text s)
    · exact nofun
  | separator => exact ⟨nofun, nofun⟩

end Content

namespace Node

/-- A record occurs in the context of a node if it is that of the node itself, or occurs in the
context of a child. -/
theorem occurs_context_cases {n : Node} :
    Value.Occurs fields (n.context separators) ↔
      n.context separators = .record fields ∨
        ∃ c ∈ n.children, Value.Occurs fields (c.context separators) := by
  rw [context_eq]
  constructor
  · intro h
    cases h with
    | here => exact Or.inl rfl
    | field hf h =>
      rcases List.mem_cons.mp hf with rfl | hf
      · exact absurd h (Value.not_occurs_text _)
      · obtain ⟨g, hg, rfl⟩ := List.mem_map.mp hf
        obtain ⟨c, hc, h⟩ := Content.occurs_value_iff.mp h
        exact Or.inr ⟨c, mem_children_iff.mpr ⟨g, hg, hc⟩, h⟩
  · rintro (h | ⟨c, hc, h⟩)
    · rw [h]
      exact .here
    · obtain ⟨g, hg, hc⟩ := mem_children_iff.mp hc
      have hvalue := Content.occurs_value_iff.mpr ⟨c, hc, h⟩
      exact .field (List.mem_cons_of_mem _ (List.mem_map_of_mem hg)) hvalue

/-- The records in the context of a tree are the contexts of the nodes in it. -/
theorem occurs_context_iff {n : Node} :
    Value.Occurs fields (n.context separators)
      ↔ ∃ m : Node, m.Within n ∧ m.context separators = .record fields := by
  constructor
  · intro h
    induction n using Node.induction with
    | step n ih =>
      rcases occurs_context_cases.mp h with h | ⟨c, hc, h⟩
      · exact ⟨n, .here, h⟩
      · obtain ⟨m, hm, heq⟩ := ih c hc h
        exact ⟨m, .child hc hm, heq⟩
  · rintro ⟨m, hm, heq⟩
    induction hm with
    | here => exact occurs_context_cases.mpr (Or.inl heq)
    | child hc _ ih => exact occurs_context_cases.mpr (Or.inr ⟨_, hc, ih⟩)

/-! ## Kinds of records -/

theorem field?_type_statement (separators : Separators) (s : Statement) :
    Value.field? "type" ((statement s).fields separators) = some (.text s.kindName) := rfl

/-- The record of an expression has its kind under another name than that of a statement. -/
theorem field?_type_expression (separators : Separators) (e : Expr) :
    Value.field? "type" ((expression e).fields separators) = none := by
  have hkind : (expression e).discriminator ≠ "type" := by simp [discriminator]
  refine Value.field?_eq_none (List.forall_mem_cons.mpr ⟨hkind, ?_⟩)
  refine List.forall_mem_map.mpr fun f hf heq => ?_
  exact name_notMem_discriminators (.expression e) f hf (heq ▸ List.mem_cons_self)

theorem field?_expressionType_expression (separators : Separators) (e : Expr) :
    Value.field? "expressionType" ((expression e).fields separators) = some (.text e.kindName) :=
  rfl

end Node

end ModelScript
