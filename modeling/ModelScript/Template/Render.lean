import ModelScript.Reading
import ModelScript.Template.Basic

/-!
# Rendering

Renders context values.  A text stands for itself and a list for its items one after the other; a
record is rendered by the template that is named for its kind, which may have other values rendered
in turn.  Values are rendered up to a number of levels within each other.
-/

namespace ModelScript.Value

/-! ## Template names -/

/-- Whether a value has anything in it. -/
def isFilled : Value → Bool
  | text s => !s.isEmpty
  | list items => !items.isEmpty
  | record fields => !fields.isEmpty

/-- The ending of the names of template files. -/
def templateEnding : String := ".j2"

variable [TemplateEngine]

/-- The name of the template for a record: its `type` if that is filled, else its
`expressionType`. -/
def templateName (fields : List (String × Value)) : Rendering String :=
  let kind :=
    match field? "type" fields with
    | some v => if v.isFilled then some v else field? "expressionType" fields
    | none => field? "expressionType" fields
  match kind with
  | some (.text name) => .ok (name ++ templateEnding)
  | _ => .error (.unnamed (fields.map (·.1)))

/-! ## Rendering values -/

/-- Renders a value that takes less than `depth` levels. -/
def renderWithin (templates : Templates TemplateEngine.Error TemplateEngine.Crash) :
    Nat → Value → Rendering String
  | 0, _ => .error .tooDeep
  | _ + 1, text s => .ok s
  | depth + 1, list items => do return String.join (← items.mapM (renderWithin templates depth))
  | depth + 1, record fields => do
    let template ← templates (← templateName fields)
    template (renderWithin templates depth) fields

def render [DepthLimits] (templates : Templates TemplateEngine.Error TemplateEngine.Crash) :
    Value → Rendering String :=
  renderWithin templates DepthLimits.rendering

end ModelScript.Value
