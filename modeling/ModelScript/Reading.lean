import ModelScript.Log
import ModelScript.Token.Lexer

/-!
# Reading source text

The computations of the parsers: logged, and stopped by the first thing that is wrong.  A text that
is nested too deeply stops them in its own way, so that leaving out what cannot be read never hides
it.
-/

namespace ModelScript

/-! ## Limits -/

/-- How deep nesting may go on a machine. -/
class DepthLimits where
  reading : Nat
  rendering : Nat

/-- The number of levels up to which source text is read. -/
def depthLimit [DepthLimits] : Nat := DepthLimits.reading

/-! ## Stops -/

/-- Why reading a source text stops. -/
inductive Stop where
  /-- The text is wrong. -/
  | fault (fault : Fault)
  /-- The text is nested beyond what is read. -/
  | tooDeep
  /-- A list was asked for between brackets of a kind that holds no list. -/
  | noList (opening : Kind)
  deriving DecidableEq, Repr

def Stop.message : Stop → String
  | fault f => f.message
  | tooDeep => "maximum recursion depth exceeded"
  | noList opening => Text.quoted opening.name

/-- A computation that reads source text. -/
abbrev Reading := Logged Stop

/-- Stops at a problem in a line of a file. -/
def Reading.fault {α : Type} (file : String) (line : Nat) (problem : Problem) : Reading α :=
  .fail (.fault ⟨file, line, problem⟩)

/-- Reads a text whose first line has the number `line` as tokens, noting how many there are. -/
def Reading.tokens (file : String) (line : Nat) (source : List Char) : Reading (List Token) :=
  match tokenize file line source with
  | .error f => .fail (.fault f)
  | .ok tokens => ⟨[.tokenized file tokens.length], .ok tokens⟩

end ModelScript
