import ModelScript.Fault

/-!
# Events and logged computations

What a run reports while it goes on, and computations that carry their reports along.  A `Logged`
computation keeps its events whether it succeeds or fails, so a caller that goes on after a failure
loses none of them.
-/

namespace ModelScript

/-! ## Events -/

/-- How important an event is. -/
inductive Level where
  | debug
  | info
  | warning
  deriving DecidableEq, Repr

def Level.name : Level → String
  | debug => "DEBUG"
  | info => "INFO"
  | warning => "WARNING"

/-- Something worth reporting. -/
inductive Event where
  /-- A text was read as so many tokens. -/
  | tokenized (file : String) (count : Nat)
  /-- The only element of a list could not be read and was left out. -/
  | dropped (fault : Fault)
  /-- A file was read as so many statements. -/
  | parsed (file : String) (statements : Nat)
  /-- A configuration with so many settings was read. -/
  | loaded (settings : Nat) (path : String)
  /-- The files of a setting are about to be compiled. -/
  | building (files : Nat) (source : String)
  /-- A file was given up. -/
  | failed (file : String) (reason : String)
  /-- A generated file was written. -/
  | wrote (path : String)
  deriving DecidableEq, Repr

namespace Event

def level : Event → Level
  | tokenized .. | parsed .. | loaded .. | failed .. => .debug
  | building .. | wrote .. => .info
  | dropped _ => .warning

/-- The name of the log that an event goes to. -/
def channel : Event → String
  | tokenized .. => "zolang.zolang_lexer"
  | dropped _ => "zolang.zolang_expression"
  | parsed .. => "zolang.zolang_parser"
  | loaded .. => "zolang.zolang_config"
  | building .. => "zolang.zolang_cli"
  | failed .. | wrote _ => "zolang.zolang_build"

def message : Event → String
  | tokenized file count => s!"Tokenized {file} into {count} tokens"
  | dropped fault => s!"Dropping unparsable single list element: {fault.message}"
  | parsed file statements => s!"Parsed {file}: {statements} top-level statements"
  | loaded settings path => s!"Loaded {settings} build settings from {path}"
  | building files source => s!"Building {files} files from {source}"
  | failed file reason => s!"Failed to compile {file}: {reason}"
  | wrote path => s!"Wrote {path}"

def line (e : Event) : String := s!"{e.level.name} {e.channel}: {e.message}"

def isWarning (e : Event) : Bool := e.level == .warning

end Event

/-! ## Logged computations -/

/-- The outcome of a computation and the events on the way to it. -/
structure Logged (ε α : Type) where
  events : List Event
  outcome : Except ε α

namespace Logged

variable {ε α β : Type}

def ok (a : α) : Logged ε α := ⟨[], .ok a⟩

def fail (e : ε) : Logged ε α := ⟨[], .error e⟩

/-- One event. -/
def note (event : Event) : Logged ε Unit := ⟨[event], .ok ()⟩

/-- Goes on with the result, if there is one, and keeps the events of both parts. -/
def andThen (x : Logged ε α) (f : α → Logged ε β) : Logged ε β :=
  match x.outcome with
  | .ok a =>
    let y := f a
    ⟨x.events ++ y.events, y.outcome⟩
  | .error e => ⟨x.events, .error e⟩

instance : Monad (Logged ε) where
  pure := ok
  bind := andThen

def warnings (x : Logged ε α) : List Event := x.events.filter Event.isWarning

/-! ## Lemmas -/

theorem bind_def (x : Logged ε α) (f : α → Logged ε β) : x >>= f = x.andThen f := rfl

theorem pure_def (a : α) : (pure a : Logged ε α) = ⟨[], .ok a⟩ := rfl

/-- A result passes its events on to what follows. -/
theorem andThen_ok (events : List Event) (a : α) (f : α → Logged ε β) :
    (⟨events, .ok a⟩ : Logged ε α).andThen f = ⟨events ++ (f a).events, (f a).outcome⟩ := rfl

theorem andThen_self (x : Logged ε α) : x.andThen ok = x := by
  obtain ⟨events, outcome⟩ := x
  cases outcome with
  | error e => rfl
  | ok a => rw [andThen_ok, ok, List.append_nil]

/-- It does not matter which of three parts are put together first. -/
theorem andThen_assoc {γ : Type} (x : Logged ε α) (f : α → Logged ε β) (g : β → Logged ε γ) :
    (x.andThen f).andThen g = x.andThen fun a => (f a).andThen g := by
  obtain ⟨events, outcome⟩ := x
  cases outcome with
  | error e => rfl
  | ok a =>
    rw [andThen_ok, andThen_ok]
    obtain ⟨more, next⟩ := f a
    cases next with
    | error e => rfl
    | ok b => rw [andThen_ok, andThen_ok, List.append_assoc]

instance : LawfulMonad (Logged ε) :=
  LawfulMonad.mk' _ andThen_self (fun _ _ => rfl) andThen_assoc

end Logged

end ModelScript
