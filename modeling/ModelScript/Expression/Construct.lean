import ModelScript.Expression.Basic
import ModelScript.Scope
import ModelScript.Token.LexicalClass

/-!
# Leading constructs

The construct that an expression begins with, told from its first tokens.  Line breaks are passed
over, except that a prefix operator has to be the very first token.
-/

namespace ModelScript

/-- What an expression can begin with. -/
inductive Construct where
  | parentheses
  | prefixed (operator : String)
  | list
  | call (name : String)
  | access (name : String)
  | atom (kind : Atom) (text : String)
  deriving DecidableEq, Repr

namespace Construct

/-- The prefix operator that the tokens begin with: one of its own, or a sign. -/
def prefixOf? : List Token → Option String
  | .prefixOperator op :: _ => some op
  | .operator op :: _ => if signSpellings.contains op then some op else none
  | _ => none

/-- The construct of a name, which the token after it decides. -/
def ofName (name : String) (following : Option Token) : Construct :=
  match following with
  | some (.mark (.opening .round)) => .call name
  | some (.mark (.opening .square)) => .access name
  | _ => .atom .identifier name

/-- The construct that the tokens begin with, if an expression can begin so. -/
def of? (tokens : List Token) : Option Construct :=
  match prefixOf? tokens with
  | some op => some (.prefixed op)
  | none =>
    match Token.trimStart tokens with
    | .mark (.opening .round) :: _ => some .parentheses
    | .mark (.opening .square) :: _ => some .list
    | .ident name :: rest => some (ofName name (Token.significant? rest))
    | .integer text :: _ => some (.atom .integer text)
    | .float text :: _ => some (.atom .float text)
    | .string raw :: _ => some (.atom .string raw)
    | .boolean text :: _ => some (.atom .boolean text)
    | _ => none

end Construct

end ModelScript
