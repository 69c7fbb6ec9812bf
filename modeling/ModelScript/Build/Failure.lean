import ModelScript.Config.Setting
import ModelScript.Template.Render

/-!
# Failures

What can go wrong in a run.  A failure concerns one file, which then has no output, and leaves the
others alone.  An abort ends the whole run.
-/

namespace ModelScript

variable [TemplateEngine]

/-! ## Failures and aborts -/

/-- Why a file has no output. -/
inductive Failure where
  | fault (fault : Fault)
  | template (error : TemplateEngine.Error)
  | refused (error : FileError)
  | undecodable (fault : Text.Utf8.Fault)

def Failure.message : Failure → String
  | fault f => f.message
  | template e => TemplateEngine.errorMessage e
  | refused e => e.message
  | undecodable f => f.message

/-- What ends a run. -/
inductive Abort where
  /-- Reading a source text stopped without a fault. -/
  | stopped (stop : Stop)
  /-- A context to be rendered does not name its kind. -/
  | unnamed (fields : List String)
  | path (error : PathError)
  | refused (error : FileError)
  | undecodable (fault : Text.Utf8.Fault)
  /-- A path has a character of code zero. -/
  | nullByte
  /-- A number in a configuration has too many digits. -/
  | tooManyDigits (digits : Nat)
  /-- The name of a file does not end like that of a source. -/
  | notSource
  /-- An indentation is too large or too small to be used. -/
  | indentation
  /-- There is no indentation to be used. -/
  | noIndentation
  /-- There is no configuration to be loaded. -/
  | noConfig
  | crashed (crash : TemplateEngine.Crash)

def Abort.message : Abort → String
  | stopped stop => stop.message
  | unnamed fields => unnamedMessage fields
  | path e => e.message
  | refused e => e.message
  | undecodable f => f.message
  | nullByte => "embedded null byte"
  | tooManyDigits n =>
    s!"Exceeds the limit ({Text.digitLimit} digits) for integer string conversion: "
      ++ s!"value has {n} digits; use sys.set_int_max_str_digits() to increase the limit"
  | notSource => s!"Only {sourceEnding} files are supported."
  | indentation => "cannot fit 'int' into an index-sized integer"
  | noIndentation => "can't multiply sequence by non-int of type 'list'"
  | noConfig => "expected str, bytes or os.PathLike object, not list"
  | crashed crash => TemplateEngine.crashMessage crash

/-- A failure of one file, or what ends the run. -/
abbrev Mishap := Failure ⊕ Abort

/-! ## What an error comes to -/

def ReadError.abort : ReadError → Abort
  | refused e => .refused e
  | undecodable f => .undecodable f
  | nullByte => .nullByte

def ReadError.mishap : ReadError → Mishap
  | refused e => .inl (.refused e)
  | undecodable f => .inl (.undecodable f)
  | nullByte => .inr .nullByte

def Stop.mishap : Stop → Mishap
  | fault f => .inl (.fault f)
  | stop => .inr (.stopped stop)

def RenderError.mishap : RenderError TemplateEngine.Error TemplateEngine.Crash → Mishap
  | template e => .inl (.template e)
  | refused e => .inl (.refused e)
  | undecodable f => .inl (.undecodable f)
  | unnamed fields => .inr (.unnamed fields)
  | tooDeep => .inr (.stopped .tooDeep)
  | crashed crash => .inr (.crashed crash)

end ModelScript
