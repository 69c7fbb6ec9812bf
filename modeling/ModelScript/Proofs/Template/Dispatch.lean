import ModelScript.Proofs.Build.Run

/-!
# Templates by kind

Projection names the kind of a node in one of two fields, and rendering looks for the kind there.
No other field of a record is named like these two (`Node.name_notMem_discriminators`), so every
record in a context is rendered by the template for the kind of the node that it stands for:

    templateName (n.fields separators) = n.kindName ++ ".j2"     (Node.templateName_fields)

A model lists its members twice, once all together and once by kind, and the second is the first
sorted by template (`Node.fields_splitsMembers`).
-/

namespace ModelScript

/-! ## Kinds and templates -/

namespace Node

theorem exists_model_of_kindName {n : Node} (h : n.kindName = "modelDescription") :
    ∃ name members, n = .statement (.model name members) := by
  cases n with
  | expression e => cases e with
    | atom kind text => cases kind <;> simp [kindName, Expr.kindName, Expr.atomName] at h
    | _ => simp [kindName, Expr.kindName] at h
  | statement s => cases s with
    | model name members => exact ⟨name, members, rfl⟩
    | member m => cases m <;> simp [kindName, Statement.kindName] at h
    | _ => simp [kindName, Statement.kindName] at h

/-- Of the fields that may hold a kind a record has one, which holds the kind of its node. -/
theorem filter_discriminators_fields (separators : Separators) (n : Node) :
    (n.fields separators).filter (fun f => f.1 ∈ discriminators)
      = [(n.discriminator, .text n.kindName)] := by
  have hkind : n.discriminator ∈ discriminators := by
    cases n <;> simp [discriminator, discriminators]
  have hothers : ∀ f ∈ Content.values separators n.contents, f.1 ∉ discriminators :=
    List.forall_mem_map.mpr fun f hf => n.name_notMem_discriminators f hf
  unfold fields
  rw [List.filter_cons_of_pos (by simpa using hkind),
    List.filter_eq_nil_iff.mpr (by simpa using hothers)]

end Node

/-! ## Members by kind -/

section Engines

variable [TemplateEngine]

/-- Whether a value is a record that a template is for. -/
def Value.usesTemplate (name : String) : Value → Bool
  | record fields => (templateName fields).toOption = some name
  | _ => false

/-- Whether a record lists some members, and once more those that the templates of properties and
of functions are for, in the same order. -/
def Value.SplitsMembers (fields : List (String × Value)) : Prop :=
  ∃ members : List Value,
    field? "members" fields = some (.list members) ∧
      field? "properties" fields = some (.list (members.filter (usesTemplate "property.j2"))) ∧
      field? "functions" fields
        = some (.list (members.filter (usesTemplate "functionDeclaration.j2")))

namespace Node

theorem usesTemplate_context (separators : Separators) (n : Node) (name : String) :
    (n.context separators).usesTemplate name
      = decide (n.kindName ++ Value.templateEnding = name) := by
  rw [context_eq, Value.usesTemplate, templateName_fields]
  simp [Except.toOption]

/-- The members of a kind are those that the template for the kind is for. -/
theorem filter_usesTemplate_members {isKind : Member → Bool} {name : String}
    (h : ∀ m, isKind m = decide ((ofMember m).kindName ++ Value.templateEnding = name))
    (separators : Separators) (members : List Member) :
    (members.map (context separators ∘ ofMember)).filter (Value.usesTemplate name)
      = (members.filter isKind).map (context separators ∘ ofMember) := by
  rw [List.filter_map]
  refine congrArg _ (List.filter_congr fun m _ => ?_)
  exact (usesTemplate_context separators (ofMember m) name).trans (h m).symm

/-- The record of a model splits its members by their templates. -/
theorem fields_splitsMembers (separators : Separators) (name : String) (members : List Member) :
    Value.SplitsMembers ((statement (.model name members)).fields separators) := by
  have hproperty (m : Member) : m.isProperty
      = decide ((ofMember m).kindName ++ Value.templateEnding = "property.j2") := by
    cases m <;> rfl
  have hfunction (m : Member) : (!m.isProperty)
      = decide ((ofMember m).kindName ++ Value.templateEnding = "functionDeclaration.j2") := by
    cases m <;> rfl
  refine ⟨members.map (context separators ∘ ofMember), ?_, ?_, ?_⟩
  · rw [← List.map_map]
    rfl
  · rw [filter_usesTemplate_members hproperty, ← List.map_map]
    rfl
  · rw [filter_usesTemplate_members hfunction, ← List.map_map]
    rfl

/-! ## Records in contexts -/

/-- How a record stands for a node: it has one field for a kind, which holds that of the node, and
is rendered by the template for that kind.  That of a model splits its members. -/
structure Dispatches (separators : Separators) (n : Node) (fields : List (String × Value)) :
    Prop where
  context_eq : n.context separators = .record fields
  filter_discriminators : fields.filter (fun f => f.1 ∈ discriminators)
    = [(n.discriminator, .text n.kindName)]
  templateName_eq : Value.templateName fields = .ok (n.kindName ++ ".j2")
  splitsMembers : n.kindName = "modelDescription" → Value.SplitsMembers fields

theorem dispatches_fields (separators : Separators) (n : Node) :
    n.Dispatches separators (n.fields separators) where
  context_eq := n.context_eq separators
  filter_discriminators := n.filter_discriminators_fields separators
  templateName_eq := n.templateName_fields separators
  splitsMembers h := by
    obtain ⟨name, members, rfl⟩ := exists_model_of_kindName h
    exact fields_splitsMembers separators name members

/-- Every record in the context of a tree, or in that of a text that is compiled, stands for a node
of the tree, which decides on its template. -/
theorem context_dispatches [DepthLimits] (separators : Separators) :
    (∀ (n : Node) (fields : List (String × Value)), Value.Occurs fields (n.context separators) →
        ∃ m : Node, m.Within n ∧ m.Dispatches separators fields) ∧
      ∀ (file : String) (source : List Char) (v : Value),
        (compile separators file source).outcome = .ok v →
          ∀ fields, Value.Occurs fields v → ∃ name, Value.templateName fields = .ok name := by
  have hnode (n : Node) (fields : List (String × Value))
      (hoccurs : Value.Occurs fields (n.context separators)) :
      ∃ m : Node, m.Within n ∧ m.Dispatches separators fields := by
    obtain ⟨m, hm, hcontext⟩ := occurs_context_iff.mp hoccurs
    rw [m.context_eq, Value.record.injEq] at hcontext
    exact ⟨m, hm, hcontext ▸ m.dispatches_fields separators⟩
  refine ⟨hnode, fun file source v hv fields hoccurs => ?_⟩
  obtain ⟨body, rfl⟩ := compile_eq_ok hv
  rw [fileContext, ← context_ofBody] at hoccurs
  obtain ⟨m, -, hm⟩ := hnode _ fields hoccurs
  exact ⟨_, hm.templateName_eq⟩

end Node

end Engines

namespace Node

/-- A model with a property and a function, and a text without statements. -/
theorem context_dispatches_model :
    let n : Node := .statement (.model "M"
      [.property "x" (.plain "number") ⟨true, false⟩ none, .function "f" [] [] none ⟨false, true⟩])
    (∃ m : Node, m.Within n ∧ m.Dispatches [] (n.fields [])) ∧
      ∃ name, Value.templateName ((ofBody []).fields []) = .ok name := by
  intro n
  obtain ⟨hnodes, htexts⟩ := context_dispatches []
  have hn : Value.Occurs (n.fields []) (n.context []) :=
    occurs_context_iff.mpr ⟨n, .here, n.context_eq []⟩
  have hbody : Value.Occurs ((ofBody []).fields []) (fileContext [] []) := by
    rw [fileContext, bodyContext_eq]
    exact .here
  exact ⟨hnodes n _ hn, htexts "a" [] _ (CommandLine.compile_nil [] "a") _ hbody⟩

end Node

end ModelScript
