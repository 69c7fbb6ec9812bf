import ModelScript.Context.Projection
import ModelScript.Statement.Parser

/-!
# Compiling a file

From the text of a file to its context: tokens, statements, context values.  The first fault ends
it.  A text that is nested too deeply is reported as a fault of its first line.
-/

namespace ModelScript

/-- Reads the text of a file as statements that are nested less than `depth` levels deep. -/
def readWithin (depth : Nat) (file : String) (source : List Char) : Reading (List Statement) := do
  let tokens ← Reading.tokens file 1 source
  let (body, _) ← parseWithin depth file ⟨tokens, 1⟩
  return body

variable [DepthLimits]

/-- Reads the text of a file as statements. -/
def readFile (file : String) (source : List Char) : Reading (List Statement) :=
  readWithin depthLimit file source

/-- Reports too deep a nesting in the first line of a file. -/
def Stop.located (file : String) : Stop → Stop
  | tooDeep => fault ⟨file, 1, .tooDeep⟩
  | stop => stop

/-- The context of the text of a file. -/
def compile (separators : Separators) (file : String) (source : List Char) : Reading Value :=
  let x := readFile file source
  ⟨x.events, (x.outcome.mapError (Stop.located file)).map (fileContext separators)⟩

end ModelScript
