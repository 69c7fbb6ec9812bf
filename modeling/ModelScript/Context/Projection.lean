import ModelScript.Context.Basic
import ModelScript.Statement.Basic

/-!
# Projection

Turns trees into context values.  Every node becomes a record whose first field names its kind:
`expressionType` for expressions and `type` for statements.  The other fields hold its parts;
optional parts that are absent have no field, and modifiers become a list of their names.  Every
body carries the separator of its statements, which comes from the settings of the build.
-/

namespace ModelScript

/-! ## Separators -/

/-- The separators of a build setting, each with its name. -/
abbrev Separators := List (String × String)

/-- The separator between the statements of a body: a line break unless a setting names another. -/
def Separators.block (separators : Separators) : String := (separators.lookup "block").getD "\n"

/-! ## Expressions -/

namespace Expr

def atomName : Atom → String
  | .integer => "integerLiteral"
  | .float => "floatLiteral"
  | .string => "stringLiteral"
  | .boolean => "booleanLiteral"
  | .identifier => "identifier"

def kindName : Expr → String
  | atom kind _ => atomName kind
  | templated _ => "templatedString"
  | list _ => "listLiteral"
  | access .. => "listAccess"
  | call .. => "functionCall"
  | prefixed .. => "prefix"
  | grouped _ => "parentheses"
  | operation .. => "operation"

/-- A record for an expression of the given kind. -/
def node (kind : String) (fields : List (String × Value)) : Value :=
  .record (("expressionType", .text kind) :: fields)

mutual

def context : Expr → Value
  | atom kind text => node (atomName kind) [("value", .text text)]
  | templated parts => node "templatedString" [("expressions", .list (contexts parts))]
  | list elements => node "listLiteral" [("expressions", .list (contexts elements))]
  | access name index =>
    node "listAccess" [("identifier", .text name), ("expression", context index)]
  | call name arguments =>
    node "functionCall" [("name", .text name), ("expressions", .list (contexts arguments))]
  | prefixed operator operand =>
    node "prefix" [("prefix", .text operator), ("expression", context operand)]
  | grouped inner => node "parentheses" [("expression", context inner)]
  | operation left operator right =>
    node "operation" [("leftExpression", context left), ("operator", .text operator),
      ("rightExpression", context right)]

def contexts : List Expr → List Value
  | [] => []
  | e :: rest => context e :: contexts rest

end

end Expr

/-! ## Statements -/

/-- A record for a statement of the given kind. -/
def Statement.node (kind : String) (fields : List (String × Value)) : Value :=
  .record (("type", .text kind) :: fields)

/-- A field for an optional part. -/
def optionalField {α : Type} (name : String) (context : α → Value) :
    Option α → List (String × Value)
  | none => []
  | some a => [(name, context a)]

def TypeRef.context : TypeRef → Value
  | plain name => Statement.node "typeReference" [("name", .text name)]
  | of name element =>
    Statement.node "typeReference" [("name", .text name), ("elementType", element.context)]

def Parameter.context (p : Parameter) : Value :=
  Statement.node "parameter" [("name", .text p.name), ("paramType", p.type.context)]

/-- The names of the modifiers that are set. -/
def Modifiers.context (m : Modifiers) : Value :=
  .list ((if m.isPrivate then [.text "private"] else [])
    ++ (if m.isStatic then [.text "static"] else []))

def Member.isProperty : Member → Bool
  | property .. => true
  | function .. => false

mutual

/-- The context of a statement whose bodies are separated by `separator`. -/
def Statement.context (separator : String) : Statement → Value
  | .block body => bodyContext separator body
  | .model name members =>
    Statement.node "modelDescription" [
      ("name", .text name),
      ("members", .list (memberContexts separator members)),
      ("properties", .list (propertyContexts separator members)),
      ("functions", .list (functionContexts separator members))]
  | .member m => m.context separator
  | .parameter p => p.context
  | .type t => t.context
  | .declaration name value type =>
    Statement.node "variableDeclaration" ([("identifier", .text name),
      ("expression", value.context)] ++ optionalField "varType" TypeRef.context type)
  | .change name value index =>
    Statement.node "mutation" ([("identifier", .text name), ("expression", value.context)]
      ++ optionalField "index" Expr.context index)
  | .conditional condition body none =>
    Statement.node "conditional" [("condition", condition.context),
      ("codeBlock", bodyContext separator body)]
  | .conditional condition body (some otherwise) =>
    Statement.node "conditional" [("condition", condition.context),
      ("codeBlock", bodyContext separator body), ("elseBlock", bodyContext separator otherwise)]
  | .loop condition body =>
    Statement.node "loop" [("condition", condition.context),
      ("codeBlock", bodyContext separator body)]
  | .result value => Statement.node "return" (optionalField "expression" Expr.context value)
  | .bare value => Statement.node "expressionStatement" [("expression", value.context)]

def bodyContext (separator : String) (body : List Statement) : Value :=
  Statement.node "codeBlock" [("statements", .list (statementContexts separator body)),
    ("separator", .text separator)]

def statementContexts (separator : String) : List Statement → List Value
  | [] => []
  | s :: rest => s.context separator :: statementContexts separator rest

def Member.context (separator : String) : Member → Value
  | .property name type modifiers initial =>
    Statement.node "property" ([("name", .text name), ("propertyType", type.context),
      ("modifiers", modifiers.context)] ++ optionalField "defaultValue" Expr.context initial)
  | .function name parameters body returns modifiers =>
    Statement.node "functionDeclaration" ([("name", .text name),
      ("params", .list (parameters.map Parameter.context)),
      ("codeBlock", bodyContext separator body), ("modifiers", modifiers.context)]
      ++ optionalField "returnType" TypeRef.context returns)

def memberContexts (separator : String) : List Member → List Value
  | [] => []
  | m :: rest => m.context separator :: memberContexts separator rest

def propertyContexts (separator : String) : List Member → List Value
  | [] => []
  | m :: rest =>
    (if m.isProperty then [m.context separator] else []) ++ propertyContexts separator rest

def functionContexts (separator : String) : List Member → List Value
  | [] => []
  | m :: rest =>
    (if m.isProperty then [] else [m.context separator]) ++ functionContexts separator rest

end

/-! ## Nodes -/

/-- Any node of a tree. -/
inductive Node where
  | expression (expression : Expr)
  | statement (statement : Statement)

/-- The context of a node under the given separators. -/
def Node.context (separators : Separators) : Node → Value
  | expression e => e.context
  | statement s => s.context separators.block

def fileContext (separators : Separators) (body : List Statement) : Value :=
  bodyContext separators.block body

end ModelScript
