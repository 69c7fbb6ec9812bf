import ModelScript.Proofs.Context.Records
import ModelScript.Template.Render

/-!
# Contexts name their templates

A record is rendered by the template that is named for its kind, so a record without a kind cannot
be rendered at all.  The contexts of trees have no such record (`Node.context_named`).  So where
templates come to nothing but texts and template errors, rendering the context of a tree does too,
whatever the templates have rendered on the way (`Value.caught_render`).
-/

namespace ModelScript

theorem Statement.kindName_isEmpty (s : Statement) : s.kindName.isEmpty = false := by
  cases s with
  | member m => cases m <;> rfl
  | _ => rfl

variable [TemplateEngine]

/-! ## Errors that a build takes for failures -/

/-- Whether an error fails a file and not the whole build. -/
def RenderError.IsCaught : RenderError TemplateEngine.Error TemplateEngine.Crash → Prop
  | template _ | refused _ | undecodable _ | tooDeep => True
  | unnamed _ | crashed _ => False

/-- Whether a computation can fail a file at most. -/
def Caught {α : Type} (x : Rendering α) : Prop := ∀ e, x = .error e → e.IsCaught

namespace Caught

variable {α β : Type}

theorem pure (a : α) : Caught (.ok a) := nofun

theorem bind {x : Rendering α} {f : α → Rendering β} (hx : Caught x)
    (hf : ∀ a, x = .ok a → Caught (f a)) : Caught (x >>= f) := by
  cases x with
  | error e =>
    intro e' h
    cases h
    exact hx e rfl
  | ok a => exact hf a rfl

theorem map {x : Rendering α} (f : α → β) (hx : Caught x) : Caught (f <$> x) := by
  cases x with
  | error e =>
    intro e' h
    cases h
    exact hx e rfl
  | ok a => exact pure (f a)

theorem mapM {f : α → Rendering β} {as : List α} (h : ∀ a ∈ as, Caught (f a)) :
    Caught (as.mapM f) := by
  induction as with
  | nil => exact pure []
  | cons a rest ih =>
    obtain ⟨ha, hrest⟩ := List.forall_mem_cons.mp h
    rw [List.mapM_cons]
    exact bind ha fun b _ => bind (ih hrest) fun bs _ => pure (b :: bs)

end Caught

/-- Whether a template comes to nothing but texts and template errors by itself: it does as long as
rendering does, for all values that hold no records but its own. -/
def Template.IsTame (template : Template TemplateEngine.Error TemplateEngine.Crash) : Prop :=
  ∀ (render : Value → Rendering String) (fields : List (String × Value)),
    (∀ v, (∀ r, Value.Occurs r v → Value.Occurs r (.record fields)) → Caught (render v)) →
      Caught (template render fields)

/-- Whether the templates of an engine come to nothing but texts and template errors. -/
def TemplateEngine.OnlyTemplateErrors : Prop :=
  ∀ files directory name, Caught (templates files directory name) ∧
    ∀ template, templates files directory name = .ok template → template.IsTame

/-! ## Values whose records name their kinds -/

/-- Whether all records in a value name their kinds. -/
def Value.Named (v : Value) : Prop :=
  ∀ fields, Occurs fields v → ∃ name, templateName fields = .ok name

namespace Node

/-- The record of a node is rendered by the template for its kind. -/
theorem templateName_fields (separators : Separators) (n : Node) :
    Value.templateName (n.fields separators) = .ok (n.kindName ++ Value.templateEnding) := by
  unfold Value.templateName
  cases n with
  | expression e =>
    rw [field?_type_expression, field?_expressionType_expression]
    rfl
  | statement s =>
    rw [field?_type_statement]
    simp [Value.isFilled, s.kindName_isEmpty, kindName]

theorem context_named (separators : Separators) (n : Node) : (n.context separators).Named := by
  intro fields hfields
  obtain ⟨m, -, hm⟩ := occurs_context_iff.mp hfields
  rw [context_eq, Value.record.injEq] at hm
  exact hm ▸ ⟨_, m.templateName_fields separators⟩

end Node

theorem fileContext_named (separators : Separators) (body : List Statement) :
    (fileContext separators body).Named := by
  rw [fileContext, ← Node.context_ofBody]
  exact Node.context_named separators _

/-! ## Rendering -/

namespace Value

theorem caught_renderWithin (h : TemplateEngine.OnlyTemplateErrors) (files : FileTree)
    (directory : String) (depth : Nat) (v : Value) (hv : v.Named) :
    Caught (v.renderWithin (TemplateEngine.templates files directory) depth) := by
  induction depth generalizing v with
  | zero =>
    intro e he
    cases he
    exact trivial
  | succ depth ih =>
    cases v with
    | text s => exact .pure s
    | list items =>
      refine .bind (.mapM fun w hw => ih w fun fields hfields => ?_) fun texts _ => .pure _
      exact hv fields (.item hw hfields)
    | record fields =>
      obtain ⟨name, hname⟩ := hv fields .here
      obtain ⟨hload, htame⟩ := h files directory name
      rw [renderWithin, hname]
      refine .bind (.pure name) fun name' hname' => ?_
      cases hname'
      refine .bind hload fun template htemplate => ?_
      -- whatever the template has rendered holds records of this value alone
      exact htame template htemplate _ fields fun w hw =>
        ih w fun others hothers => hv others (hw others hothers)

/-- A value whose records name their kinds is rendered, or fails its file at most. -/
theorem caught_render [DepthLimits] (h : TemplateEngine.OnlyTemplateErrors) (files : FileTree)
    (directory : String) {v : Value} (hv : v.Named) :
    Caught (v.render (TemplateEngine.templates files directory)) :=
  caught_renderWithin h files directory _ v hv

end Value

end ModelScript
