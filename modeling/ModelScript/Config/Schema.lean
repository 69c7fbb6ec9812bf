import ModelScript.Config.Setting

/-!
# Configurations as documents

A configuration is an object that lists its settings, each of which is an object with texts for its
paths and its extension.  Fields have more than one name, of which the first that is there counts,
and fields that nothing asks for are left alone.
-/

namespace ModelScript.BuildSetting

/-- The value of the first of some names that is present. -/
def choice? (fields : List (Option String × Document)) (names : List String) : Option Document :=
  names.findSome? (Document.field? fields)

/-- The text under the first of some names that is present. -/
def text? (fields : List (Option String × Document)) (names : List String) : Option String :=
  match choice? fields names with
  | some (.string content) => content
  | _ => none

/-- The separators of a setting, a line break between statements if there are none. -/
def separators? (fields : List (Option String × Document)) : Option Separators :=
  match Document.field? fields "separators" with
  | none => some [("block", "\n")]
  | some (.object pairs) =>
    pairs.mapM fun (name, value) => do
      match value with
      | .string content => return (← name, ← content)
      | _ => none
  | some _ => none

def ofDocument? : Document → Option BuildSetting
  | .object fields => do
    let path (names : List String) : Option Path := (text? fields names).map .ofString
    return {
      sourcePath := ← path ["sourcePath", "source_path"]
      templatePath := ← path ["templatePath", "stencilPath", "template_path"]
      buildPath := ← path ["buildPath", "build_path"]
      extension := ← text? fields ["fileExtension", "file_extension"]
      separators := ← separators? fields }
  | _ => none

def allOfDocument? : Document → Option (List BuildSetting)
  | .object fields =>
    match choice? fields ["buildSettings", "build_settings"] with
    | none => some []
    | some (.array items) => items.mapM ofDocument?
    | some _ => none
  | _ => none

end ModelScript.BuildSetting
