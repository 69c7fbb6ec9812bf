import ModelScript.Config.Setting

/-!
# Configuration files

Reads the file that lists the build settings.  A file that cannot be read, is no JSON or does not
describe settings is a configuration error; text that is not UTF-8 and overlong numbers are not.
-/

namespace ModelScript

/-- The configuration file that is read if no other is named. -/
def defaultConfig : String := "zolang.json"

/-- What is wrong with a configuration file. -/
inductive ConfigError where
  | unreadable (path : Path) (error : FileError)
  | notJson (path : Path)
  | invalid (path : Path)
  deriving DecidableEq, Repr

/-- What a configuration error says about its file. -/
def ConfigError.summary : ConfigError → String
  | unreadable path _ => s!"Could not read config file {path.toString}"
  | notJson path => s!"Config file {path.toString} is not valid JSON"
  | invalid path => s!"Invalid config file {path.toString}"

def ConfigError.message (e : ConfigError) : String :=
  match e with
  | unreadable _ error => s!"{e.summary}: {error.message}"
  | _ => e.summary

/-- Why no settings are loaded. -/
inductive LoadError where
  | config (error : ConfigError)
  | undecodable (fault : Text.Utf8.Fault)
  | nullByte
  | tooManyDigits (digits : Nat)
  deriving DecidableEq, Repr

/-- Loads the build settings that a file lists.  Their paths are seen from the file's directory. -/
def loadConfig [ConfigSchema] (files : FileTree) (path : Path) :
    Except LoadError (List BuildSetting) :=
  match files.readText path path.toString with
  | .error (.refused e) => .error (.config (.unreadable path e))
  | .error (.undecodable f) => .error (.undecodable f)
  | .error .nullByte => .error .nullByte
  | .ok text =>
    match Document.ofText text with
    | .error .malformed => .error (.config (.notJson path))
    | .error (.tooManyDigits n) => .error (.tooManyDigits n)
    | .ok document =>
      match ConfigSchema.settings? document with
      | none => .error (.config (.invalid path))
      | some settings => .ok (settings.map (BuildSetting.within path.parent))

end ModelScript
