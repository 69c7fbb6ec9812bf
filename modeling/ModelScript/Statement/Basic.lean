import ModelScript.Expression.Basic

/-!
# Statements

The tree of a source file: models with their members, declarations, changes of variables, control
flow and bare expressions.  A body is a list of statements.
-/

namespace ModelScript

/-- A type: a name, or a name applied to the type of its elements, as in `list of text`. -/
inductive TypeRef where
  | plain (name : String)
  | of (name : String) (element : TypeRef)
  deriving DecidableEq, Repr

structure Parameter where
  name : String
  type : TypeRef
  deriving DecidableEq, Repr

/-- The modifiers in front of a member. -/
structure Modifiers where
  isPrivate : Bool
  isStatic : Bool
  deriving DecidableEq, Repr

mutual

inductive Statement where
  | block (body : List Statement)
  | model (name : String) (members : List Member)
  | member (member : Member)
  | parameter (parameter : Parameter)
  | type (type : TypeRef)
  | declaration (name : String) (value : Expr) (type : Option TypeRef)
  /-- A new value for a variable, or for the element of a list at an index. -/
  | change (name : String) (value : Expr) (index : Option Expr)
  | conditional (condition : Expr) (body : List Statement) (otherwise : Option (List Statement))
  | loop (condition : Expr) (body : List Statement)
  | result (value : Option Expr)
  | bare (value : Expr)

inductive Member where
  | property (name : String) (type : TypeRef) (modifiers : Modifiers) (initial : Option Expr)
  | function (name : String) (parameters : List Parameter) (body : List Statement)
      (returns : Option TypeRef) (modifiers : Modifiers)

end

end ModelScript
