import ModelScript.Config.Setting
import ModelScript.Proofs.Context.Records
import ModelScript.Proofs.Lookup.Projection

/-!
# What settings do to contexts

A build setting has a say in contexts only through the separator of bodies.  Under other settings a
tree has the same context but for the separators in the records of its bodies, wherever they stand:

    n.context t = (n.context s).withSeparator t.block     (Node.context_withSeparator)

The schema has a separator in bodies and nowhere else (`Node.separator_iff`), and the rest of it
does not know the settings.
-/

namespace ModelScript

/-! ## Separators in force -/

/-- The separators under a build setting, or without one. -/
def BuildSetting.inForce (setting : Option BuildSetting) : Separators :=
  Lookup.withDefaults (setting.elim [] BuildSetting.separators)

/-- What holds without a setting does not count where the setting names a separator, and is what
bodies fall back to anyway. -/
theorem Separators.block_withDefaults (separators : Separators) :
    (Lookup.withDefaults separators).block = separators.block := by
  rw [block, Lookup.lookup_withDefaults, Option.getD_some]

/-- What is in force names a separator for bodies. -/
theorem BuildSetting.lookup_inForce (setting : Option BuildSetting) :
    (inForce setting).lookup "block" = some (inForce setting).block := by
  unfold inForce
  rw [Separators.block_withDefaults, Lookup.lookup_withDefaults]

/-! ## Replacing separators -/

namespace Value

/-- Whether these are the fields in the record of a body. -/
def isBody (fields : List (String × Value)) : Bool :=
  match field? "type" fields with
  | some (.text kind) => kind = "codeBlock"
  | _ => false

mutual

/-- A value with another separator in the records of its bodies, at whatever depth. -/
def withSeparator (separator : String) : Value → Value
  | text s => text s
  | list items => list (itemsWithSeparator separator items)
  | record fields => record (fieldsWithSeparator separator (isBody fields) fields)

/-- Values with another separator in the records of their bodies. -/
def itemsWithSeparator (separator : String) : List Value → List Value
  | [] => []
  | v :: rest => v.withSeparator separator :: itemsWithSeparator separator rest

/-- The fields of a record with another separator, in the record itself if it is that of a body. -/
def fieldsWithSeparator (separator : String) (body : Bool) :
    List (String × Value) → List (String × Value)
  | [] => []
  | (key, v) :: rest =>
    (key, if body && key = "separator" then .text separator else v.withSeparator separator)
      :: fieldsWithSeparator separator body rest

end

variable (separator : String)

theorem itemsWithSeparator_eq (items : List Value) :
    itemsWithSeparator separator items = items.map (withSeparator separator) := by
  induction items with
  | nil => rfl
  | cons v rest ih => rw [itemsWithSeparator, ih, List.map_cons]

theorem fieldsWithSeparator_eq (body : Bool) (fields : List (String × Value)) :
    fieldsWithSeparator separator body fields = fields.map fun f =>
      (f.1, if body && f.1 = "separator" then .text separator
        else f.2.withSeparator separator) := by
  induction fields with
  | nil => rfl
  | cons f rest ih => rw [fieldsWithSeparator, ih, List.map_cons]

end Value

theorem Modifiers.context_withSeparator (m : Modifiers) (separator : String) :
    m.context.withSeparator separator = m.context := by
  obtain ⟨isPrivate, isStatic⟩ := m
  cases isPrivate <;> cases isStatic <;> rfl

/-! ## Contexts under other settings -/

namespace Value

theorem isBody_eq_true_iff (separators : Separators) {n : Node} :
    isBody (n.fields separators) = true ↔ ∃ body, n = .ofBody body := by
  unfold isBody Node.ofBody
  cases n with
  | expression e => simp [Node.field?_type_expression]
  | statement s =>
    rw [Node.field?_type_statement]
    cases s with
    | member m => cases m <;> simp [Statement.kindName]
    | _ => simp [Statement.kindName]

end Value

/-- What a field holds follows the separators if the nodes in it do. -/
theorem Content.value_withSeparator {s t : Separators} {content : Content}
    (hcontent : content ≠ .separator)
    (h : ∀ c ∈ content.children,
      c.context t = (c.context s).withSeparator t.block) :
    (content.value s).withSeparator t.block = content.value t := by
  cases content with
  | text text => rfl
  | node n => exact (h n (List.mem_singleton_self n)).symm
  | nodes ns =>
    have hns : (ns.map (Node.context s)).map (Value.withSeparator t.block)
        = ns.map (Node.context t) := by
      rw [List.map_map]
      exact List.map_congr_left fun c hc => (h c hc).symm
    unfold value
    rw [Value.withSeparator, Value.itemsWithSeparator_eq, hns]
  | modifiers m => exact m.context_withSeparator t.block
  | separator => exact absurd rfl hcontent

namespace Node

/-- Under other separators a tree has the same context, but for the separators of its bodies. -/
theorem context_withSeparator (s t : Separators) (n : Node) :
    n.context t = (n.context s).withSeparator t.block := by
  induction n using Node.induction with
  | step n ih =>
    rw [context_eq, context_eq, Value.withSeparator, Value.fieldsWithSeparator_eq]
    have hseparator := separator_iff n
    simp only [← Value.isBody_eq_true_iff s] at hseparator
    generalize Value.isBody (n.fields s) = body at hseparator ⊢
    have hkind : n.discriminator ≠ "separator" := by cases n <;> simp [discriminator]
    refine congrArg Value.record (congrArg₂ List.cons ?_ ?_)
    · simp [hkind, Value.withSeparator]
    · unfold Content.values
      rw [List.map_map]
      refine List.map_congr_left fun f hf => Prod.ext rfl ?_
      show f.2.value t = if body && f.1 = "separator" then .text t.block else
        (f.2.value s).withSeparator t.block
      by_cases h : f.2 = .separator
      · obtain ⟨hbody, hname⟩ := (hseparator f hf).mp h
        rw [hbody, hname, h]
        rfl
      · rw [if_neg (by simpa [h] using hseparator f hf)]
        exact (Content.value_withSeparator h fun c hc =>
          ih c (mem_children_iff.mpr ⟨f, hf, hc⟩)).symm

theorem context_congr {s t : Separators} (n : Node) (h : s.block = t.block) :
    n.context s = n.context t := by
  cases n with
  | expression e => rfl
  | statement statement => exact congrArg (statement.context ·) h

/-- The record of a body in a context has the separator that is in force. -/
theorem separator_of_isBody {separators : Separators} (n : Node) {fields : List (String × Value)}
    (hoccurs : Value.Occurs fields (n.context separators)) (hbody : Value.isBody fields = true) :
    Value.field? "separator" fields = some (.text separators.block) := by
  obtain ⟨m, -, hm⟩ := occurs_context_iff.mp hoccurs
  rw [context_eq, Value.record.injEq] at hm
  subst hm
  obtain ⟨body, rfl⟩ := (Value.isBody_eq_true_iff separators).mp hbody
  rfl

end Node

/-- Under any two build settings, or without one, a tree has the same context but for the separators
of its bodies, each of which is the one that the separators in force name for bodies.  So settings
with the same separator for bodies give the same contexts, whatever else they name. -/
theorem Node.context_follows_block (n : Node) (s t : Option BuildSetting) :
    let under (setting : Option BuildSetting) := n.context (BuildSetting.inForce setting)
    let block (setting : Option BuildSetting) := (BuildSetting.inForce setting).block
    (∀ setting, (BuildSetting.inForce setting).lookup "block" = some (block setting)) ∧
      under t = (under s).withSeparator (block t) ∧
      (block s = block t → under s = under t) ∧
      (∀ fields, Value.Occurs fields (under s) → Value.isBody fields = true →
        Value.field? "separator" fields = some (.text (block s))) ∧
      ∀ setting : BuildSetting, n.context setting.separators = under (some setting) := by
  intro under block
  refine ⟨BuildSetting.lookup_inForce, n.context_withSeparator _ _, n.context_congr, fun fields => n.separator_of_isBody,
    fun setting => n.context_congr ?_⟩
  exact (Separators.block_withDefaults setting.separators).symm

/-- A loop with an empty body, without a setting and under one that does not name a separator for
bodies. -/
theorem Node.context_follows_block_of_loop :
    let n : Node := .statement (.loop (.atom .boolean "true") [])
    let setting : BuildSetting := ⟨⟨0, ["src"]⟩, ⟨0, ["t"]⟩, ⟨0, ["out"]⟩, "c", [("list", ", ")]⟩
    n.context (BuildSetting.inForce none) = n.context (BuildSetting.inForce (some setting)) ∧
      ∃ fields, Value.Occurs fields (n.context (BuildSetting.inForce none)) ∧
        Value.field? "separator" fields = some (.text "\n") := by
  intro n setting
  obtain ⟨-, -, hsame, hbodies, -⟩ := n.context_follows_block none (some setting)
  have hbody : Value.Occurs ((ofBody []).fields (BuildSetting.inForce none))
      (n.context (BuildSetting.inForce none)) :=
    occurs_context_iff.mpr ⟨ofBody [], .child (by simp [n, children, contents,
      Statement.contents, Content.children]) .here, context_eq _ _⟩
  exact ⟨hsame (by decide), _, hbody, hbodies _ hbody (by decide)⟩

end ModelScript
