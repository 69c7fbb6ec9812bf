import ModelScript.Build.Compile
import ModelScript.Build.Failure

/-!
# Building files

Compiles the files of a build setting one after the other and collects what goes wrong with each.
A file that fails leaves the others alone.  What is wrong with the build itself ends it at once: an
output path that cannot be formed, a file that cannot be written, or a source that cannot even be
asked for.

`buildAll` carries the file tree along, so a file sees what was written for those in front of it.
-/

namespace ModelScript

/-! ## One file -/

/-- Where the text of a source comes from. -/
inductive Source where
  | text (text : List Char)
  | path (path : Path)
  | unencodable (path : UnencodablePath)
  deriving DecidableEq, Repr

/-- Why a source gives no text. -/
inductive SourceError where
  | unreadable (error : ReadError)
  | unencodable (fault : Text.Unencodable)
  deriving DecidableEq, Repr

def Source.read (files : FileTree) : Source → Except SourceError (List Char)
  | text t => .ok t
  | path p => (files.readText p p.toString).mapError .unreadable
  | unencodable p => .error (.unencodable p.fault)

variable [TemplateEngine]

def SourceError.mishap : SourceError → Mishap
  | unreadable e => e.mishap
  | unencodable f => .inr (.path (.unencodable f))

/-- What became of one file. -/
structure FileResult where
  file : String
  context : Option Value
  output : Option String
  failure : Option Failure

def FileResult.succeeded (r : FileResult) : Bool := r.failure.isNone

/-- How a build treats each file: its separators, and the name of the directory of its templates if
its contexts are rendered. -/
structure Pass where
  separators : Separators
  templates : Option String
  deriving DecidableEq, Repr

/-- The result of a file, or what ends the run; a failure is noted and becomes the result. -/
def settle (file : String) (context : Option Value) : Mishap → Logged Abort FileResult
  | .inr abort => .fail abort
  | .inl failure =>
    ⟨[.failed file failure.message], .ok ⟨file, context, none, some failure⟩⟩

variable [DepthLimits]

/-- Renders the context of a file, if there are templates.  What is nested too deeply fails in the
first line of the file, and is not noted. -/
def renderFile (files : FileTree) (pass : Pass) (file : String) (context : Value) :
    Logged Abort FileResult :=
  match pass.templates with
  | none => return ⟨file, some context, none, none⟩
  | some directory =>
    match context.render (TemplateEngine.templates files directory) with
    | .ok output => return ⟨file, some context, some output, none⟩
    | .error .tooDeep =>
      return ⟨file, some context, none, some (.fault ⟨file, 1, .renderedTooDeep⟩)⟩
    | .error e => settle file (some context) e.mishap

def buildFile (files : FileTree) (pass : Pass) (file : String) (source : Source) :
    Logged Abort FileResult :=
  match source.read files with
  | .error e => settle file none e.mishap
  | .ok text =>
    let x := compile pass.separators file text
    let y := match x.outcome with
      | .error stop => settle file none stop.mishap
      | .ok context => renderFile files pass file context
    ⟨x.events ++ y.events, y.outcome⟩

/-! ## Output -/

/-- Writes a text to a path, making the directories on the way. -/
def writeText (files : FileTree) (path : Path) (text : String) : Except Abort FileTree :=
  if path.toString.toList.contains '\x00' then .error .nullByte
  else
    match files.makeDirectories path.parent with
    | .error e => .error (.refused e)
    | .ok files =>
      match files.writeFile path (Text.Utf8.encode text) with
      | .error e => .error (.refused e)
      | .ok files => .ok files

/-- Writes the output of a file, if it has one and the build writes at all. -/
def writeResult (setting : Option BuildSetting) (files : FileTree) (result : FileResult) :
    Logged Abort FileTree :=
  match setting, result.output with
  | some setting, some output =>
    match setting.outputPath (.ofString result.file) with
    | .error e => .fail (.path e)
    | .ok path =>
      match writeText files path output with
      | .error a => .fail a
      | .ok files => ⟨[.wrote path.toString], .ok files⟩
  | _, _ => return files

/-! ## All files -/

/-- What became of a build: the results so far, the events on the way, the files as they are left,
and what ended the run, if anything did. -/
structure Built where
  results : List FileResult
  events : List Event
  files : FileTree
  abort : Option Abort

/-- Builds files one after the other.  With a setting, outputs are written to its build path. -/
def buildAll (pass : Pass) (setting : Option BuildSetting) :
    FileTree → List (String × Source) → Built
  | files, [] => ⟨[], [], files, none⟩
  | files, (file, source) :: rest =>
    let x := buildFile files pass file source
    match x.outcome with
    | .error a => ⟨[], x.events, files, some a⟩
    | .ok result =>
      let y := writeResult setting files result
      match y.outcome with
      | .error a => ⟨[result], x.events ++ y.events, files, some a⟩
      | .ok files =>
        let more := buildAll pass setting files rest
        ⟨result :: more.results, x.events ++ y.events ++ more.events, more.files, more.abort⟩

/-- Builds the sources of a setting and writes what they give. -/
def BuildSetting.build (setting : BuildSetting) (files : FileTree) : Built :=
  let sources := (setting.sourceFiles files).map fun p => (p.toString, Source.path p)
  let pass : Pass := ⟨setting.separators, some setting.templatePath.toString⟩
  let built := buildAll pass (some setting) files sources
  { built with
    events := .building sources.length setting.sourcePath.toString :: built.events }

/-! ## Reports -/

def anyFailed (results : List FileResult) : Bool := results.any (!·.succeeded)

/-- What stands between two messages of a report. -/
def reportSeparator : String := "\n--------------------------------------\n"

def report (messages : List String) : String :=
  reportSeparator.intercalate (messages.map fun m => s!"Error: {m}")

/-- The message for a file that failed.  A fault names its file itself. -/
def FileResult.message? (r : FileResult) : Option String :=
  match r.failure with
  | none => none
  | some (.fault f) => some f.message
  | some failure => some s!"{r.file}: {failure.message}"

def reportOf (results : List FileResult) : String := report (results.filterMap FileResult.message?)

end ModelScript
