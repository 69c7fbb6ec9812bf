import ModelScript.Context.Basic
import ModelScript.Files.Tree

/-!
# Templates

A template makes a text of the fields of a record.  On the way it has values rendered, by a function
that it is given.  Which templates a directory holds, how they are written and what is wrong with
them is the business of a template engine, of which nothing is known but the texts that it makes and
how it fails.
-/

namespace ModelScript

/-- Why something is not rendered.  A template is wrong in a way of type `ε`, or comes to something
else of type `κ`. -/
inductive RenderError (ε κ : Type) where
  | template (error : ε)
  /-- A file of the engine cannot be read. -/
  | refused (error : FileError)
  /-- A file of the engine is no UTF-8 text. -/
  | undecodable (fault : Text.Utf8.Fault)
  /-- A record with these fields does not name its kind. -/
  | unnamed (fields : List String)
  /-- Values are nested beyond what is rendered. -/
  | tooDeep
  | crashed (crash : κ)
  deriving DecidableEq, Repr

abbrev Renders (ε κ : Type) := Except (RenderError ε κ)

/-- The text that is made of the fields of a record, given how values are rendered. -/
abbrev Template (ε κ : Type) :=
  (Value → Renders ε κ String) → List (String × Value) → Renders ε κ String

abbrev Templates (ε κ : Type) := String → Renders ε κ (Template ε κ)

/-- The engine that a build renders with. -/
class TemplateEngine where
  /-- What can be wrong with a template. -/
  Error : Type
  /-- What else a template can come to. -/
  Crash : Type
  errorMessage : Error → String
  crashMessage : Crash → String
  /-- The templates in a directory, as it is named to the engine. -/
  templates : FileTree → String → Templates Error Crash

abbrev Rendering [TemplateEngine] := Renders TemplateEngine.Error TemplateEngine.Crash

/-- How a record without a kind is worded: by the names of its fields, in order. -/
def unnamedMessage (fields : List String) : String :=
  let names := (fields.mergeSort fun a b => a ≤ b).map Text.quoted
  "Context has no node discriminator: [" ++ ", ".intercalate names ++ "]"

end ModelScript
