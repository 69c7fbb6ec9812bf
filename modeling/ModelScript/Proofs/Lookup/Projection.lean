import ModelScript.Context.Projection
import ModelScript.Proofs.Lookup.Basic

/-!
# Projection by look-ups

The projection of a tree, which asks at every node whether there is a projection for nodes of that
kind, and at every body for the separator of its statements among the settings.  Every kind of node
has a projection, and the settings begin with a separator, so neither is missed (`projectFile_eq`).
-/

namespace ModelScript.Lookup

open Looking (entry entry_eq)

/-! ## Tables -/

/-- The kinds of nodes that there is a projection for. -/
def projections : List String :=
  ["integerLiteral", "floatLiteral", "stringLiteral", "booleanLiteral", "identifier",
    "templatedString", "listLiteral", "listAccess", "functionCall", "prefix", "parentheses",
    "operation", "codeBlock", "typeReference", "parameter", "property", "functionDeclaration",
    "modelDescription", "variableDeclaration", "mutation", "conditional", "loop", "return",
    "expressionStatement"]

/-- The separators of a build setting in front of those that hold without one. -/
def withDefaults (separators : Separators) : Separators := separators ++ [("block", "\n")]

/-- A record for a node of the given kind, whose fields are projected if there is a projection for
the kind. -/
def project (key kind : String) (fields : Looking (List (String × Value))) : Looking Value :=
  if projections.contains kind then do
    let fields ← fields
    return .record ((key, .text kind) :: fields)
  else .fail (.miss .projection)

def optional {α : Type} (name : String) (projection : α → Looking Value) :
    Option α → Looking (List (String × Value))
  | none => return []
  | some a => do
    let v ← projection a
    return [(name, v)]

/-! ## Expressions -/

mutual

def projectExpr : Expr → Looking Value
  | .atom kind text => project "expressionType" (Expr.atomName kind) do
    return [("value", .text text)]
  | .templated parts => project "expressionType" "templatedString" do
    let parts ← projectExprs parts
    return [("expressions", .list parts)]
  | .list elements => project "expressionType" "listLiteral" do
    let elements ← projectExprs elements
    return [("expressions", .list elements)]
  | .access name index => project "expressionType" "listAccess" do
    let index ← projectExpr index
    return [("identifier", .text name), ("expression", index)]
  | .call name arguments => project "expressionType" "functionCall" do
    let arguments ← projectExprs arguments
    return [("name", .text name), ("expressions", .list arguments)]
  | .prefixed operator operand => project "expressionType" "prefix" do
    let operand ← projectExpr operand
    return [("prefix", .text operator), ("expression", operand)]
  | .grouped inner => project "expressionType" "parentheses" do
    let inner ← projectExpr inner
    return [("expression", inner)]
  | .operation left operator right => project "expressionType" "operation" do
    let left ← projectExpr left
    let right ← projectExpr right
    return [("leftExpression", left), ("operator", .text operator), ("rightExpression", right)]

def projectExprs : List Expr → Looking (List Value)
  | [] => return []
  | e :: rest => do
    let v ← projectExpr e
    let vs ← projectExprs rest
    return v :: vs

end

/-! ## Statements -/

def projectType : TypeRef → Looking Value
  | .plain name => project "type" "typeReference" do
    return [("name", .text name)]
  | .of name element => project "type" "typeReference" do
    let element ← projectType element
    return [("name", .text name), ("elementType", element)]

def projectParameter (p : Parameter) : Looking Value := project "type" "parameter" do
  let type ← projectType p.type
  return [("name", .text p.name), ("paramType", type)]

def projectParameters : List Parameter → Looking (List Value)
  | [] => return []
  | p :: rest => do
    let v ← projectParameter p
    let vs ← projectParameters rest
    return v :: vs

mutual

/-- Projects a statement, its bodies with one of some separators. -/
def projectStatement (separators : Separators) : Statement → Looking Value
  | .block body => projectBody separators body
  | .model name members => project "type" "modelDescription" do
    let all ← projectMembers separators (fun _ => true) members
    let properties ← projectMembers separators Member.isProperty members
    let functions ← projectMembers separators (!·.isProperty) members
    return [("name", .text name), ("members", .list all), ("properties", .list properties),
      ("functions", .list functions)]
  | .member m => projectMember separators m
  | .parameter p => projectParameter p
  | .type t => projectType t
  | .declaration name value type => project "type" "variableDeclaration" do
    let value ← projectExpr value
    let type ← optional "varType" projectType type
    return [("identifier", .text name), ("expression", value)] ++ type
  | .change name value index => project "type" "mutation" do
    let value ← projectExpr value
    let index ← optional "index" projectExpr index
    return [("identifier", .text name), ("expression", value)] ++ index
  | .conditional condition body none => project "type" "conditional" do
    let condition ← projectExpr condition
    let body ← projectBody separators body
    return [("condition", condition), ("codeBlock", body)]
  | .conditional condition body (some otherwise) => project "type" "conditional" do
    let condition ← projectExpr condition
    let body ← projectBody separators body
    let otherwise ← projectBody separators otherwise
    return [("condition", condition), ("codeBlock", body), ("elseBlock", otherwise)]
  | .loop condition body => project "type" "loop" do
    let condition ← projectExpr condition
    let body ← projectBody separators body
    return [("condition", condition), ("codeBlock", body)]
  | .result value => project "type" "return" (optional "expression" projectExpr value)
  | .bare value => project "type" "expressionStatement" do
    let value ← projectExpr value
    return [("expression", value)]

/-- Projects a body, and looks up its separator. -/
def projectBody (separators : Separators) (body : List Statement) : Looking Value :=
  project "type" "codeBlock" do
    let statements ← projectStatements separators body
    let separator ← entry separators "block"
    return [("statements", .list statements), ("separator", .text separator)]

def projectStatements (separators : Separators) : List Statement → Looking (List Value)
  | [] => return []
  | s :: rest => do
    let v ← projectStatement separators s
    let vs ← projectStatements separators rest
    return v :: vs

def projectMember (separators : Separators) : Member → Looking Value
  | .property name type modifiers initial => project "type" "property" do
    let type ← projectType type
    let initial ← optional "defaultValue" projectExpr initial
    return [("name", .text name), ("propertyType", type), ("modifiers", modifiers.context)]
      ++ initial
  | .function name parameters body returns modifiers => project "type" "functionDeclaration" do
    let parameters ← projectParameters parameters
    let body ← projectBody separators body
    let returns ← optional "returnType" projectType returns
    return [("name", .text name), ("params", .list parameters), ("codeBlock", body),
      ("modifiers", modifiers.context)] ++ returns

def projectMembers (separators : Separators) (sort : Member → Bool) :
    List Member → Looking (List Value)
  | [] => return []
  | m :: rest => do
    if sort m then
      let v ← projectMember separators m
      let vs ← projectMembers separators sort rest
      return v :: vs
    else projectMembers separators sort rest

end

/-! ## The same contexts -/

theorem lookup_withDefaults (separators : Separators) :
    (withDefaults separators).lookup "block" = some separators.block := by
  unfold withDefaults Separators.block
  rw [List.lookup_append]
  cases separators.lookup "block" <;> rfl

theorem entry_withDefaults (separators : Separators) :
    entry (withDefaults separators) "block" = pure separators.block :=
  entry_eq (lookup_withDefaults separators)

theorem project_eq {key kind : String} (h : projections.contains kind = true)
    (fields : List (String × Value)) :
    project key kind (pure fields) = pure (.record ((key, .text kind) :: fields)) := by
  unfold project
  rw [if_pos h, pure_bind]

theorem optional_eq {α : Type} (name : String) {projection : α → Looking Value}
    {context : α → Value} (h : ∀ a, projection a = pure (context a)) (part : Option α) :
    optional name projection part = pure (optionalField name context part) := by
  cases part with
  | none => rfl
  | some a =>
    show (do
      let v ← projection a
      return [(name, v)]) = _
    rw [h, pure_bind]
    rfl

mutual

theorem projectExpr_eq : (e : Expr) → projectExpr e = pure e.context
  | .atom kind text => by
    cases kind <;> exact project_eq (by decide +kernel) _
  | .templated parts => by
    rw [projectExpr, projectExprs_eq parts]
    exact project_eq (by decide +kernel) _
  | .list elements => by
    rw [projectExpr, projectExprs_eq elements]
    exact project_eq (by decide +kernel) _
  | .access name index => by
    rw [projectExpr, projectExpr_eq index]
    exact project_eq (by decide +kernel) _
  | .call name arguments => by
    rw [projectExpr, projectExprs_eq arguments]
    exact project_eq (by decide +kernel) _
  | .prefixed operator operand => by
    rw [projectExpr, projectExpr_eq operand]
    exact project_eq (by decide +kernel) _
  | .grouped inner => by
    rw [projectExpr, projectExpr_eq inner]
    exact project_eq (by decide +kernel) _
  | .operation left operator right => by
    rw [projectExpr, projectExpr_eq left, projectExpr_eq right]
    exact project_eq (by decide +kernel) _

theorem projectExprs_eq : (es : List Expr) → projectExprs es = pure (Expr.contexts es)
  | [] => rfl
  | e :: rest => by
    rw [projectExprs, projectExpr_eq e, projectExprs_eq rest]
    rfl

end

theorem projectType_eq (t : TypeRef) : projectType t = pure t.context := by
  induction t with
  | plain name => exact project_eq (by decide +kernel) _
  | of name element ih =>
    rw [projectType, ih]
    exact project_eq (by decide +kernel) _

theorem projectParameter_eq (p : Parameter) : projectParameter p = pure p.context := by
  rw [projectParameter, projectType_eq]
  exact project_eq (by decide +kernel) _

theorem projectParameters_eq (ps : List Parameter) :
    projectParameters ps = pure (ps.map Parameter.context) := by
  induction ps with
  | nil => rfl
  | cons p rest ih =>
    rw [projectParameters, projectParameter_eq, ih]
    rfl

variable {separators : Separators}

mutual

theorem projectStatement_eq : (s : Statement) →
    projectStatement (withDefaults separators) s = pure (s.context separators.block)
  | .block body => by
    rw [projectStatement, projectBody_eq body, Statement.context]
  | .model name members => by
    obtain ⟨hall, hproperties, hfunctions⟩ := projectMembers_eq members
    rw [projectStatement, hall, hproperties, hfunctions, Statement.context]
    exact project_eq (by decide +kernel) _
  | .member m => by
    rw [projectStatement, projectMember_eq m, Statement.context]
  | .parameter p => by
    rw [projectStatement, projectParameter_eq, Statement.context]
  | .type t => by
    rw [projectStatement, projectType_eq, Statement.context]
  | .declaration name value type => by
    rw [projectStatement, projectExpr_eq, optional_eq _ projectType_eq, Statement.context]
    exact project_eq (by decide +kernel) _
  | .change name value index => by
    rw [projectStatement, projectExpr_eq, optional_eq _ projectExpr_eq, Statement.context]
    exact project_eq (by decide +kernel) _
  | .conditional condition body none => by
    rw [projectStatement, projectExpr_eq, projectBody_eq body, Statement.context]
    exact project_eq (by decide +kernel) _
  | .conditional condition body (some otherwise) => by
    rw [projectStatement, projectExpr_eq, projectBody_eq body, projectBody_eq otherwise,
      Statement.context]
    exact project_eq (by decide +kernel) _
  | .loop condition body => by
    rw [projectStatement, projectExpr_eq, projectBody_eq body, Statement.context]
    exact project_eq (by decide +kernel) _
  | .result value => by
    rw [projectStatement, optional_eq _ projectExpr_eq, Statement.context]
    exact project_eq (by decide +kernel) _
  | .bare value => by
    rw [projectStatement, projectExpr_eq, Statement.context]
    exact project_eq (by decide +kernel) _

theorem projectBody_eq (body : List Statement) :
    projectBody (withDefaults separators) body = pure (bodyContext separators.block body) := by
  rw [projectBody, projectStatements_eq body, pure_bind, entry_withDefaults, bodyContext]
  exact project_eq (by decide +kernel) _

theorem projectStatements_eq : (body : List Statement) →
    projectStatements (withDefaults separators) body
      = pure (statementContexts separators.block body)
  | [] => by rw [projectStatements, statementContexts]
  | s :: rest => by
    rw [projectStatements, projectStatement_eq s, projectStatements_eq rest, statementContexts]
    rfl

theorem projectMember_eq : (m : Member) →
    projectMember (withDefaults separators) m = pure (m.context separators.block)
  | .property name type modifiers initial => by
    rw [projectMember, projectType_eq, optional_eq _ projectExpr_eq, Member.context]
    exact project_eq (by decide +kernel) _
  | .function name parameters body returns modifiers => by
    rw [projectMember, projectParameters_eq, projectBody_eq body, optional_eq _ projectType_eq,
      Member.context]
    exact project_eq (by decide +kernel) _

theorem projectMembers_eq : (ms : List Member) →
    projectMembers (withDefaults separators) (fun _ => true) ms
        = pure (memberContexts separators.block ms) ∧
      projectMembers (withDefaults separators) Member.isProperty ms
        = pure (propertyContexts separators.block ms) ∧
      projectMembers (withDefaults separators) (!·.isProperty) ms
        = pure (functionContexts separators.block ms)
  | [] => by
    simp only [projectMembers, memberContexts, propertyContexts, functionContexts, and_self]
  | m :: rest => by
    obtain ⟨hall, hproperties, hfunctions⟩ := projectMembers_eq rest
    have hm := projectMember_eq m
    simp only [projectMembers, memberContexts, propertyContexts, functionContexts, hall,
      hproperties, hfunctions, hm]
    cases m.isProperty with
    | true => exact ⟨rfl, rfl, rfl⟩
    | false => exact ⟨rfl, rfl, rfl⟩

end

def projectFile (separators : Separators) (body : List Statement) : Looking Value :=
  projectBody (withDefaults separators) body

theorem projectFile_eq (separators : Separators) (body : List Statement) :
    projectFile separators body = pure (fileContext separators body) :=
  projectBody_eq body

end ModelScript.Lookup
