/-!
# Expressions

The tree of an expression.  Operations lean to the right without precedence, and explicit
parentheses stay in the tree, so the text of an expression can be written out again.
-/

namespace ModelScript

/-- The kinds of expression that consist of one piece of text. -/
inductive Atom where
  | integer
  | float
  | string
  | boolean
  | identifier
  deriving DecidableEq, Repr

inductive Expr where
  /-- A literal or a name, with its text. -/
  | atom (kind : Atom) (text : String)
  /-- A string with interpolations: its literal pieces and the expressions between them. -/
  | templated (parts : List Expr)
  | list (elements : List Expr)
  | access (name : String) (index : Expr)
  | call (name : String) (arguments : List Expr)
  | prefixed (operator : String) (operand : Expr)
  /-- An expression in parentheses. -/
  | grouped (inner : Expr)
  | operation (left : Expr) (operator : String) (right : Expr)
  deriving Repr

end ModelScript
