import ModelScript.Context.Projection

/-!
# The schema of contexts

What the record of a node holds, told one level deep: `Node.contents` lists its fields with what
stands in them, which is a text, another node, some nodes, modifiers, or the separator of a body.

    n.context separators = the kind of n, then the values of n.contents     (Node.context_eq)

The nodes that are found there are the node's children, and what the children hand on to a node
holds of every tree (`Node.induction`).  So a fact about all contexts is a fact about the schema.
-/

namespace ModelScript

/-! ## Kinds -/

def Statement.kindName : Statement → String
  | .block _ => "codeBlock"
  | .model .. => "modelDescription"
  | .member (.property ..) => "property"
  | .member (.function ..) => "functionDeclaration"
  | .parameter _ => "parameter"
  | .type _ => "typeReference"
  | .declaration .. => "variableDeclaration"
  | .change .. => "mutation"
  | .conditional .. => "conditional"
  | .loop .. => "loop"
  | .result _ => "return"
  | .bare _ => "expressionStatement"

namespace Node

def kindName : Node → String
  | expression e => e.kindName
  | statement s => s.kindName

/-- The name of the field that holds the kind of a node. -/
def discriminator : Node → String
  | expression _ => "expressionType"
  | statement _ => "type"

/-- The names of fields that hold the kind of a node. -/
def discriminators : List String := ["type", "expressionType"]

def ofType (t : TypeRef) : Node := statement (.type t)

def ofParameter (p : Parameter) : Node := statement (.parameter p)

def ofBody (body : List Statement) : Node := statement (.block body)

def ofMember (m : Member) : Node := statement (.member m)

end Node

/-! ## Contents -/

/-- What a field in the record of a node holds. -/
inductive Content where
  | text (text : String)
  | node (node : Node)
  | nodes (nodes : List Node)
  | modifiers (modifiers : Modifiers)
  /-- The separator between the statements of a body. -/
  | separator

namespace Content

/-- The context value that a field holds. -/
def value (separators : Separators) : Content → Value
  | text s => .text s
  | node n => n.context separators
  | nodes ns => .list (ns.map (Node.context separators))
  | modifiers m => m.context
  | separator => .text separators.block

def values (separators : Separators) (contents : List (String × Content)) :
    List (String × Value) :=
  contents.map fun f => (f.1, f.2.value separators)

def children : Content → List Node
  | node n => [n]
  | nodes ns => ns
  | _ => []

end Content

def Content.nodesIn (contents : List (String × Content)) : List Node :=
  contents.flatMap fun f => f.2.children

/-- A field for an optional part that is a node. -/
def optionalContent {α : Type} (name : String) (node : α → Node) :
    Option α → List (String × Content)
  | none => []
  | some a => [(name, .node (node a))]

/-- The fields of an expression behind its kind. -/
def Expr.contents : Expr → List (String × Content)
  | atom _ text => [("value", .text text)]
  | templated parts => [("expressions", .nodes (parts.map .expression))]
  | list elements => [("expressions", .nodes (elements.map .expression))]
  | access name index => [("identifier", .text name), ("expression", .node (.expression index))]
  | call name arguments =>
    [("name", .text name), ("expressions", .nodes (arguments.map .expression))]
  | prefixed operator operand =>
    [("prefix", .text operator), ("expression", .node (.expression operand))]
  | grouped inner => [("expression", .node (.expression inner))]
  | operation left operator right =>
    [("leftExpression", .node (.expression left)), ("operator", .text operator),
      ("rightExpression", .node (.expression right))]

def Statement.contents : Statement → List (String × Content)
  | .block body => [("statements", .nodes (body.map .statement)), ("separator", .separator)]
  | .model name members => [
      ("name", .text name),
      ("members", .nodes (members.map .ofMember)),
      ("properties", .nodes ((members.filter (·.isProperty)).map .ofMember)),
      ("functions", .nodes ((members.filter (!·.isProperty)).map .ofMember))]
  | .member (.property name t modifiers initial) =>
    [("name", .text name), ("propertyType", .node (.ofType t)),
      ("modifiers", .modifiers modifiers)] ++ optionalContent "defaultValue" .expression initial
  | .member (.function name parameters body returns modifiers) =>
    [("name", .text name), ("params", .nodes (parameters.map .ofParameter)),
      ("codeBlock", .node (.ofBody body)), ("modifiers", .modifiers modifiers)]
      ++ optionalContent "returnType" .ofType returns
  | .parameter p => [("name", .text p.name), ("paramType", .node (.ofType p.type))]
  | .type (.plain name) => [("name", .text name)]
  | .type (.of name element) => [("name", .text name), ("elementType", .node (.ofType element))]
  | .declaration name value t =>
    [("identifier", .text name), ("expression", .node (.expression value))]
      ++ optionalContent "varType" .ofType t
  | .change name value index =>
    [("identifier", .text name), ("expression", .node (.expression value))]
      ++ optionalContent "index" .expression index
  | .conditional condition body otherwise =>
    [("condition", .node (.expression condition)), ("codeBlock", .node (.ofBody body))]
      ++ optionalContent "elseBlock" .ofBody otherwise
  | .loop condition body =>
    [("condition", .node (.expression condition)), ("codeBlock", .node (.ofBody body))]
  | .result value => optionalContent "expression" .expression value
  | .bare value => [("expression", .node (.expression value))]

namespace Node

/-- The fields in the record of a node behind its kind. -/
def contents : Node → List (String × Content)
  | expression e => e.contents
  | statement s => s.contents

/-- The nodes right below a node. -/
def children (n : Node) : List Node := Content.nodesIn n.contents

/-- The fields in the record of a node. -/
def fields (separators : Separators) (n : Node) : List (String × Value) :=
  (n.discriminator, .text n.kindName) :: Content.values separators n.contents

end Node

/-! ## Lists of nodes -/

variable (separators : Separators)

theorem Expr.contexts_eq (es : List Expr) :
    Expr.contexts es = (es.map Node.expression).map (Node.context separators) := by
  induction es with
  | nil => rfl
  | cons e rest ih =>
    rw [Expr.contexts, ih]
    rfl

theorem statementContexts_eq (body : List Statement) :
    statementContexts separators.block body
      = (body.map Node.statement).map (Node.context separators) := by
  induction body with
  | nil =>
    rw [statementContexts]
    rfl
  | cons s rest ih =>
    rw [statementContexts, ih]
    rfl

namespace Node

@[simp]
theorem context_expression (e : Expr) : (expression e).context separators = e.context := rfl

@[simp]
theorem context_ofMember (m : Member) :
    (ofMember m).context separators = m.context separators.block := by
  rw [ofMember, context, Statement.context]

@[simp]
theorem context_ofBody (body : List Statement) :
    (ofBody body).context separators = bodyContext separators.block body := by
  rw [ofBody, context, Statement.context]

@[simp]
theorem context_ofType (t : TypeRef) : (ofType t).context separators = t.context := by
  rw [ofType, context, Statement.context]

@[simp]
theorem context_ofParameter (p : Parameter) :
    (ofParameter p).context separators = p.context := by
  rw [ofParameter, context, Statement.context]

end Node

theorem memberContexts_eq (members : List Member) :
    memberContexts separators.block members
      = (members.map Node.ofMember).map (Node.context separators) := by
  induction members with
  | nil =>
    rw [memberContexts]
    rfl
  | cons m rest ih =>
    rw [memberContexts, ih]
    simp

theorem propertyContexts_eq (members : List Member) :
    propertyContexts separators.block members
      = ((members.filter (·.isProperty)).map Node.ofMember).map (Node.context separators) := by
  induction members with
  | nil =>
    rw [propertyContexts]
    rfl
  | cons m rest ih =>
    rw [propertyContexts, ih]
    by_cases hm : m.isProperty = true <;> simp [hm]

theorem functionContexts_eq (members : List Member) :
    functionContexts separators.block members
      = ((members.filter (!·.isProperty)).map Node.ofMember).map (Node.context separators) := by
  induction members with
  | nil =>
    rw [functionContexts]
    rfl
  | cons m rest ih =>
    rw [functionContexts, ih]
    by_cases hm : m.isProperty = true <;> simp [hm]

/-! ## Contexts follow the schema -/

namespace Content

@[simp]
theorem values_nil : values separators [] = [] := rfl

@[simp]
theorem values_cons (f : String × Content) (rest : List (String × Content)) :
    values separators (f :: rest) = (f.1, f.2.value separators) :: values separators rest := rfl

theorem values_optionalContent {α : Type} {context : α → Value} {node : α → Node}
    (h : ∀ a, (node a).context separators = context a) (name : String) (a : Option α) :
    values separators (optionalContent name node a) = optionalField name context a := by
  cases a with
  | none => rfl
  | some a => exact congrArg (fun v => [(name, v)]) (h a)

@[simp]
theorem values_optionalContent_expression (name : String) (e : Option Expr) :
    values separators (optionalContent name .expression e) = optionalField name Expr.context e :=
  values_optionalContent separators (fun _ => rfl) name e

@[simp]
theorem values_optionalContent_ofType (name : String) (t : Option TypeRef) :
    values separators (optionalContent name .ofType t) = optionalField name TypeRef.context t :=
  values_optionalContent separators (Node.context_ofType separators) name t

end Content

theorem Expr.context_eq (e : Expr) :
    e.context = .record (Node.fields separators (.expression e)) := by
  cases e with
  | atom kind text => rfl
  | templated parts =>
    rw [Expr.context, Expr.contexts_eq separators]
    rfl
  | list elements =>
    rw [Expr.context, Expr.contexts_eq separators]
    rfl
  | access name index => rfl
  | call name arguments =>
    rw [Expr.context, Expr.contexts_eq separators]
    rfl
  | prefixed operator operand => rfl
  | grouped inner => rfl
  | operation left operator right => rfl

attribute [local simp] Statement.node Node.fields Node.discriminator Node.kindName
  Statement.kindName Node.contents Statement.contents Content.value

theorem TypeRef.context_eq (t : TypeRef) :
    t.context = .record (Node.fields separators (.ofType t)) := by
  unfold Node.ofType
  cases t with
  | plain name => simp [TypeRef.context]
  | of name element => simp [TypeRef.context]

theorem Parameter.context_eq (p : Parameter) :
    p.context = .record (Node.fields separators (.ofParameter p)) := by
  unfold Node.ofParameter
  simp [Parameter.context]

theorem Member.context_eq (m : Member) :
    m.context separators.block = .record (Node.fields separators (.ofMember m)) := by
  unfold Node.ofMember
  cases m with
  | property name type modifiers initial =>
    rw [Member.context]
    simp
  | function name parameters body returns modifiers =>
    rw [Member.context]
    simp

theorem bodyContext_eq (body : List Statement) :
    bodyContext separators.block body = .record (Node.fields separators (.ofBody body)) := by
  unfold Node.ofBody
  rw [bodyContext, statementContexts_eq]
  simp

theorem Statement.context_eq (s : Statement) :
    s.context separators.block = .record (Node.fields separators (.statement s)) := by
  cases s with
  | block body =>
    rw [Statement.context, bodyContext_eq]
    rfl
  | model name members =>
    rw [Statement.context, memberContexts_eq, propertyContexts_eq, functionContexts_eq]
    simp
  | member m =>
    rw [Statement.context, Member.context_eq]
    rfl
  | parameter p =>
    rw [Statement.context, Parameter.context_eq separators]
    rfl
  | type t =>
    rw [Statement.context, TypeRef.context_eq separators]
    rfl
  | declaration name value t =>
    rw [Statement.context]
    simp
  | change name value index =>
    rw [Statement.context]
    simp
  | conditional condition body otherwise =>
    cases otherwise with
    | none =>
      rw [Statement.context]
      simp [optionalContent]
    | some otherwise =>
      rw [Statement.context]
      simp [optionalContent]
  | loop condition body =>
    rw [Statement.context]
    simp
  | result value =>
    rw [Statement.context]
    simp
  | bare value =>
    rw [Statement.context]
    simp

/-- The context of a node is the record that the schema gives. -/
theorem Node.context_eq (n : Node) : n.context separators = .record (n.fields separators) := by
  cases n with
  | expression e => exact Expr.context_eq separators e
  | statement s => exact Statement.context_eq separators s

/-! ## Names of fields -/

theorem mem_optionalContent_iff {α : Type} {name : String} {node : α → Node} {a : Option α}
    {f : String × Content} :
    f ∈ optionalContent name node a ↔ ∃ x, a = some x ∧ f = (name, .node (node x)) := by
  cases a <;> simp [optionalContent]

namespace Node

section

attribute [local simp] contents Statement.contents Expr.contents mem_optionalContent_iff
  discriminators ofBody or_imp forall_and

/-- No field behind the kind of a node is named like one that holds a kind. -/
theorem name_notMem_discriminators (n : Node) :
    ∀ f ∈ n.contents, f.1 ∉ discriminators := by
  cases n with
  | expression e => cases e <;> simp
  | statement s =>
    cases s with
    | member m => cases m <;> simp +contextual
    | type t => cases t <;> simp
    | _ => simp +contextual

/-- Bodies have a separator, under that name, and nothing else has. -/
theorem separator_iff (n : Node) : ∀ f ∈ n.contents,
    (f.2 = .separator ↔ (∃ body, n = .ofBody body) ∧ f.1 = "separator") := by
  cases n with
  | expression e => cases e <;> simp
  | statement s =>
    cases s with
    | member m => cases m <;> simp +contextual
    | type t => cases t <;> simp
    | _ => simp +contextual

end

end Node

/-! ## Children -/

namespace Content

@[simp]
theorem nodesIn_nil : nodesIn [] = [] := rfl

@[simp]
theorem nodesIn_cons (f : String × Content) (rest : List (String × Content)) :
    nodesIn (f :: rest) = f.2.children ++ nodesIn rest := rfl

@[simp]
theorem nodesIn_optionalContent {α : Type} (name : String) (node : α → Node) (a : Option α) :
    nodesIn (optionalContent name node a) = a.toList.map node := by
  cases a <;> rfl

end Content

namespace Node

variable {separators}

theorem mem_children_iff {c n : Node} : c ∈ n.children ↔ ∃ f ∈ n.contents, c ∈ f.2.children :=
  List.mem_flatMap

attribute [local simp] children contents Content.children ofType ofParameter ofBody ofMember
  or_imp forall_and

theorem sizeOf_lt_of_mem_children_expression (e : Expr) :
    ∀ c ∈ (expression e).children, sizeOf c < sizeOf (expression e) := by
  cases e <;> simp [Expr.contents] <;> grind [→ List.sizeOf_lt_of_mem]

theorem sizeOf_lt_of_mem_children_statement (s : Statement) :
    ∀ c ∈ (statement s).children, sizeOf c < sizeOf (statement s) := by
  -- a body is a node of its own, so the condition in front of it has to count
  have hpos (e : Expr) : 0 < sizeOf e := by cases e <;> simp +arith
  cases s with
  | member m => cases m <;> simp [Statement.contents] <;> grind [→ List.sizeOf_lt_of_mem]
  | type t => cases t <;> simp +arith [Statement.contents]
  | parameter p =>
    cases p
    simp +arith [Statement.contents]
  | _ => simp [Statement.contents] <;> grind [→ List.sizeOf_lt_of_mem]

theorem sizeOf_lt_of_mem_children {c n : Node} (h : c ∈ n.children) : sizeOf c < sizeOf n := by
  cases n with
  | expression e => exact sizeOf_lt_of_mem_children_expression e c h
  | statement s => exact sizeOf_lt_of_mem_children_statement s c h

/-- What holds of a node if it holds of its children holds of every node. -/
@[elab_as_elim]
theorem induction {motive : Node → Prop}
    (step : ∀ n : Node, (∀ c ∈ n.children, motive c) → motive n) (n : Node) : motive n :=
  step n fun c _hc => induction step c
termination_by sizeOf n
decreasing_by exact sizeOf_lt_of_mem_children _hc

end Node

end ModelScript
