import ModelScript.Text.Quoted
import ModelScript.Token.Basic

/-!
# Faults

What can be wrong with a source text.  A fault names its file and line, and its problem is the
cause; the category and the wording follow from the problem.
-/

namespace ModelScript

/-- The categories in which faults are reported. -/
inductive Category where
  | unrecognizedCharacter
  | missingMatching (bracket : Bracket)
  | invalidExpression
  | missingIdentifier
  | missingToken
  | unexpectedToken
  | unknown
  deriving DecidableEq, Repr

def Category.description : Category → String
  | unrecognizedCharacter => "Unrecognized character"
  | missingMatching .round => "Missing matching parenthesis"
  | missingMatching .square => "Missing matching bracket"
  | missingMatching .curly => "Missing matching curly brace"
  | invalidExpression => "Invalid expression"
  | missingIdentifier => "Missing identifier"
  | missingToken => "Missing token"
  | unexpectedToken => "Unexpected token"
  | unknown => "Unknown error"

/-- What is wrong at some place. -/
inductive Problem where
  /-- No lexical class fits at a character. -/
  | unrecognized (c : Char) (column : Nat)
  /-- A bracket is never closed. -/
  | unmatched (bracket : Bracket)
  /-- No expression can begin here, or an operator lacks its operand. -/
  | noExpression (found : Option Token)
  /-- A pair of parentheses has nothing in it. -/
  | emptyParentheses
  /-- A pair of brackets after a name has nothing in it. -/
  | emptyIndex
  /-- A name was wanted. -/
  | noIdentifier (found : Option Token)
  /-- A token of one kind was wanted. -/
  | noToken (wanted : Kind) (found : Option Token)
  /-- The bracket that opens a list is missing. -/
  | noOpening (wanted : Mark)
  /-- A token follows what was already complete. -/
  | leftover (found : Token)
  /-- An interpolation in a string has nothing in it. -/
  | emptyInterpolation
  /-- The text is nested beyond what is read. -/
  | tooDeep
  /-- The context is nested beyond what is rendered. -/
  | renderedTooDeep
  deriving DecidableEq, Repr

namespace Problem

def category : Problem → Category
  | unrecognized .. => .unrecognizedCharacter
  | unmatched b => .missingMatching b
  | noExpression _ | emptyParentheses | emptyIndex => .invalidExpression
  | noIdentifier _ => .missingIdentifier
  | noToken .. | noOpening _ => .missingToken
  | leftover _ => .unexpectedToken
  | emptyInterpolation | tooDeep | renderedTooDeep => .unknown

/-- What a message adds to the category. -/
def detail? : Problem → Option String
  | unrecognized c column => some s!"{Text.quoted (String.singleton c)} at column {column}"
  | unmatched _ => none
  | noExpression found | noIdentifier found => found.map Token.describe
  | emptyParentheses => some "empty parentheses"
  | emptyIndex => some "empty list index"
  | noToken wanted found =>
    some s!"expected {Text.quoted wanted.label}, got {describeToken? found}"
  | noOpening wanted => some (String.singleton wanted.symbol)
  | leftover found => some found.describe
  | emptyInterpolation => some "empty interpolation"
  | tooDeep => some "expression nested too deeply"
  | renderedTooDeep => some "context nested too deeply to render"

end Problem

/-- A problem in a line of a file. -/
structure Fault where
  file : String
  line : Nat
  problem : Problem
  deriving DecidableEq, Repr

/-- The one-line wording of a fault. -/
def Fault.message (f : Fault) : String :=
  let head := s!"{f.file}:{f.line}: {f.problem.category.description}"
  match f.problem.detail? with
  | none => head
  | some detail => s!"{head}: {detail}"

end ModelScript
