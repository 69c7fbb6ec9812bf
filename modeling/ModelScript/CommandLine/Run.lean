import ModelScript.Build.Report
import ModelScript.CommandLine.Arguments
import ModelScript.Config.Load
import ModelScript.Context.Json
import ModelScript.Defaults

/-!
# Running requests

What a request comes to on a file tree: the text it prints, the notices on the way, the files as it
leaves them, and how it ends.
-/

namespace ModelScript.CommandLine

/-! ## Outcomes -/

/-- Something to tell the user: an event of the run, or what went wrong. -/
inductive Notice where
  | event (event : Event)
  | trouble (report : String)
  deriving DecidableEq, Repr

/-- The text of a notice.  Only warnings are told of the events, unless the run is verbose. -/
def Notice.text? (verbose : Bool) : Notice → Option String
  | event e => if verbose || e.isWarning then some e.line else none
  | trouble report => some report

section Runs

variable [TemplateEngine]

/-- What a run comes to. -/
structure Outcome where
  /-- What is printed. -/
  printed : String
  notices : List Notice
  files : FileTree
  /-- The exit status, or what ended the run before it had one. -/
  ending : Except Abort Nat

/-- The notices of a run as text, each on lines of its own. -/
def Outcome.told (o : Outcome) (verbose : Bool) : String :=
  String.join ((o.notices.filterMap (Notice.text? verbose)).map (· ++ "\n"))

def Outcome.failure (files : FileTree) (events : List Event) (message : String) : Outcome :=
  ⟨"", events.map .event ++ [.trouble (report [message])], files, .ok 1⟩

def Outcome.ended (files : FileTree) (abort : Abort) : Outcome := ⟨"", [], files, .error abort⟩

/-! ## Building -/

variable [DepthLimits]

/-- Builds settings one after the other.  Each sees what those in front of it have written. -/
def buildSettings (files : FileTree) : List BuildSetting → Outcome
  | [] => ⟨"", [], files, .ok 0⟩
  | setting :: rest =>
    let built := setting.build files
    let events := built.events.map Notice.event
    match built.abort with
    | some abort => ⟨"", events, built.files, .error abort⟩
    | none =>
      let failed := anyFailed built.results
      let trouble := if failed then [Notice.trouble (reportOf built.results)] else []
      let others := buildSettings built.files rest
      { others with
        notices := events ++ trouble ++ others.notices
        ending := others.ending.map fun status => if failed then 1 else status }

variable [ConfigSchema]

def runBuild (files : FileTree) : Option String → Outcome
  | none => .ended files .noConfig
  | some config =>
    let path := Path.ofString config
    match loadConfig files path with
    | .error (.config e) => .failure files [] e.message
    | .error (.undecodable f) => .ended files (.undecodable f)
    | .error .nullByte => .ended files .nullByte
    | .error (.tooManyDigits n) => .ended files (.tooManyDigits n)
    | .ok settings =>
      let o := buildSettings files settings
      { o with notices := .event (.loaded settings.length path.toString) :: o.notices }

/-! ## Showing a context -/

/-- The name of a text that is given literally. -/
def literalName : String := "<string>"

/-- The bound of the sizes that an indentation may have. -/
def indentBound : Int := 0x8000000000000000

/-- The indentation that is used, if the one that is asked for can be. -/
def usableIndent : Option Int → Except Abort Int
  | none => .error .noIndentation
  | some n => if n < -indentBound || indentBound ≤ n then .error .indentation else .ok n

def showContext (files : FileTree) (file : String) (text : List Char) (indent : Option Int) :
    Outcome :=
  let x := compile [] file text
  match x.outcome with
  | .error (.fault f) => .failure files x.events f.message
  | .error stop => .ended files (.stopped stop)
  | .ok context =>
    match usableIndent indent with
    | .error abort => .ended files abort
    | .ok n => ⟨context.json n ++ "\n", x.events.map .event, files, .ok 0⟩

/-- Shows the context of a source. -/
def runParse (files : FileTree) (source : String) (literal : Bool) (indent : Option Int) :
    Outcome :=
  if literal then showContext files literalName source.toList indent
  else if sourceEnding.toList.isSuffixOf source.toList then
    match files.readText (.ofString source) source with
    | .ok text => showContext files source text indent
    | .error (.refused e) => .failure files [] e.message
    | .error (.undecodable f) => .failure files [] f.message
    | .error .nullByte => .ended files .nullByte
  else .ended files .notSource

end Runs

/-! ## Requests -/

/-- The paths that a request looks below, as far as the files tell. -/
def Request.paths (r : Request) (files : FileTree) : List Path :=
  match r.task with
  | .parse source literal _ => if literal then [] else [.ofString source]
  | .build none => []
  | .build (some config) =>
    let path := Path.ofString config
    match loadConfig files path with
    | .error _ => [path]
    | .ok settings => path :: settings.flatMap fun s => [s.sourcePath, s.templatePath, s.buildPath]

def Request.run (r : Request) (files : FileTree) : Outcome :=
  match r.task with
  | .build config => runBuild files config
  | .parse source literal indent => runParse files source literal indent

end ModelScript.CommandLine
