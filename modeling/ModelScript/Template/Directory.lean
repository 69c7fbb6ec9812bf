import ModelScript.Template.Parser

/-!
# Directories of templates

The templates with slots that the files of a directory hold.
-/

namespace ModelScript

/-- The parts of the path of a template below its directory.  Empty parts and single dots vanish,
and a name must not lead upwards. -/
def templateParts (name : String) : Option (List String) :=
  let parts := (Path.ofString name).parts
  if parts.contains ".." then none else some parts

/-- The templates in a directory.  Messages name the directory as it is named here. -/
def templatesIn (files : FileTree) (directory : String) : Templates TemplateError Empty :=
  fun name =>
    match templateParts name with
    | none => .error (.template (.outside name))
    | some parts =>
      let path := (Path.ofString directory).join ⟨0, parts⟩
      match files.readText path path.toString with
      | .error (.undecodable fault) => .error (.undecodable fault)
      | .error _ => .error (.template (.missing name directory))
      | .ok text =>
        match Piece.ofText? text with
        | some pieces => .ok fun render fields => Piece.fill render fields pieces
        | none => .error (.template .malformed)

end ModelScript
