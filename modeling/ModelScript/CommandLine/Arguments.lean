import ModelScript.CommandLine.Word
import ModelScript.Config.Load
import ModelScript.Text.Numeral

/-!
# Arguments

Reads the words of a command line as a request: to build what a configuration lists, or to show the
context of one source.  Options may stand in front of an operand and behind it.  They take effect
word by word, so a request for help wins over what is wrong in the words behind it, but not over
what is wrong in its own word or over an ambiguous word, which is found at once.  A word that
nothing asks for is a mistake that is noticed last.
-/

namespace ModelScript.CommandLine

/-! ## Options -/

/-- What an option is for. -/
inductive Choice where
  | help
  | verbose
  | config
  | literal
  | indent
  deriving DecidableEq, Repr

def Choice.takesValue : Choice → Bool
  | help | verbose | literal => false
  | config | indent => true

/-- The options that a command knows, by their names. -/
abbrev Options := List (String × Choice)

/-- The options in front of the command. -/
def commonOptions : Options := [("-h", .help), ("--help", .help), ("--verbose", .verbose)]

def buildOptions : Options :=
  [("-h", .help), ("--help", .help), ("-c", .config), ("--config", .config)]

def parseOptions : Options :=
  [("-h", .help), ("--help", .help), ("-s", .literal), ("--string", .literal),
    ("--indent", .indent)]

/-- Why a command line is no request. -/
inductive Refusal where
  /-- Help is asked for. -/
  | help
  | misuse
  deriving DecidableEq, Repr

def Refusal.status : Refusal → Nat
  | help => 0
  | misuse => 2

/-- What options settle.  A value may be given as none. -/
structure Settings where
  verbose : Bool
  config : Option String
  literal : Bool
  indent : Option Int
  deriving DecidableEq, Repr

/-- What holds without any option. -/
def Settings.standard : Settings := ⟨false, some defaultConfig, false, some 2⟩

def Settings.apply (s : Settings) : Choice × Option String → Except Refusal Settings
  | (.help, _) => .error .help
  | (.verbose, _) => .ok { s with verbose := true }
  | (.config, value) => .ok { s with config := value }
  | (.literal, _) => .ok { s with literal := true }
  | (.indent, none) => .ok { s with indent := none }
  | (.indent, some value) =>
    match Text.integer? value with
    | some n => .ok { s with indent := some n }
    | none => .error .misuse

/-! ## The options in one word -/

/-- What a word gives: options with their values, and perhaps one more that waits for the next word
as its value. -/
structure Given where
  choices : List (Choice × Option String)
  waiting : Option Choice
  deriving DecidableEq, Repr

namespace Given

/-- An option that stands alone. -/
def alone (choice : Choice) : Given :=
  if choice.takesValue then ⟨[], some choice⟩ else ⟨[(choice, none)], none⟩

/-- The value that the text in the word of an option stands for; two dashes stand for none. -/
def value (text : List Char) : Option String :=
  if text = ['-', '-'] then none else some (String.ofList text)

/-- An option with its value in the same word. -/
def valued (choice : Choice) (text : List Char) : Given := ⟨[(choice, value text)], none⟩

/-- What is given behind an option without a value. -/
def behind (choice : Choice) (given : Given) : Given :=
  { given with choices := (choice, none) :: given.choices }

/-- A short option with text in its word: its value if it takes one, and otherwise the letter of the
next short option with what follows. -/
def cluster (options : Options) (choice : Choice) (text : List Char) : Except Refusal Given :=
  if choice.takesValue then .ok (valued choice text)
  else
    match text with
    | [] => .error .misuse
    | letter :: more =>
      match options.lookup (String.ofList ['-', letter]), more with
      | none, _ => .error .misuse
      | some next, [] => .ok (behind choice (alone next))
      | some next, more => behind choice <$> cluster options next more

/-- Whether a name is a dash and a letter, not two dashes and a word. -/
def isShort (name : String) : Bool := name.toList[1]? ≠ some '-'

/-- What the word of an option gives. -/
def ofOption (options : Options) (name : String) (attached : Option (List Char)) :
    Except Refusal Given :=
  match options.lookup name, attached with
  | none, _ => .error .misuse
  | some choice, none => .ok (alone choice)
  | some choice, some text =>
    if isShort name then cluster options choice text
    else if choice.takesValue then .ok (valued choice text)
    else .error .misuse

end Given

/-! ## Reading words -/

/-- The settings so far, and whether anything is left over. -/
structure Progress where
  settings : Settings
  leftOver : Bool
  deriving DecidableEq, Repr

namespace Progress

def start : Progress := ⟨.standard, false⟩

def apply (p : Progress) (choices : List (Choice × Option String)) : Except Refusal Progress :=
  (choices.foldlM Settings.apply p.settings).map fun s => { p with settings := s }

/-- Reads options.  If an operand is wanted, reading ends in front of the first one, and otherwise
all operands are left over. -/
def read (options : Options) (wanted : Bool) (p : Progress) :
    List Word → Except Refusal (Progress × List Word)
  | [] => .ok (p, [])
  | ⟨text, role⟩ :: rest =>
    match role with
    | .option name attached =>
      match Given.ofOption options name attached with
      | .error e => .error e
      | .ok ⟨choices, none⟩ => do read options wanted (← p.apply choices) rest
      | .ok ⟨choices, some choice⟩ =>
        match rest with
        | ⟨value, .operand⟩ :: rest => do
          read options wanted (← p.apply (choices ++ [(choice, some value)])) rest
        | _ => .error .misuse
    | .unknown => read options wanted { p with leftOver := true } rest
    | .operand | .dashes =>
      if wanted then .ok (p, ⟨text, role⟩ :: rest)
      else read options wanted { p with leftOver := true } rest

/-- The settings, if nothing is left over. -/
def settle (p : Progress) : Except Refusal Settings :=
  if p.leftOver then .error .misuse else .ok p.settings

end Progress

/-- Sorts words by the options of a command. -/
def sorted (options : Options) (words : List String) : Except Refusal (List Word) :=
  match sortWords? (options.map (·.1)) words with
  | some words => .ok words
  | none => .error .misuse

/-! ## Requests -/

/-- What to do. -/
inductive Task where
  /-- Build all settings of a configuration. -/
  | build (config : Option String)
  /-- Show the context of a file, or of a text if it is meant literally. -/
  | parse (source : String) (literal : Bool) (indent : Option Int)
  deriving DecidableEq, Repr

/-- What a command line asks for. -/
structure Request where
  verbose : Bool
  task : Task
  deriving DecidableEq, Repr

def readBuild (p : Progress) (words : List String) : Except Refusal Request := do
  let (p, _) ← p.read buildOptions false (← sorted buildOptions words)
  let s ← p.settle
  return ⟨s.verbose, .build s.config⟩

/-- Takes the operand at the front of words, and `--` with it. -/
def takeOperand? : List Word → Option (String × List Word)
  | ⟨text, .operand⟩ :: ⟨_, .dashes⟩ :: rest => some (text, rest)
  | ⟨text, .operand⟩ :: rest => some (text, rest)
  | ⟨_, .dashes⟩ :: ⟨text, .operand⟩ :: rest => some (text, rest)
  | _ => none

def readParse (p : Progress) (words : List String) : Except Refusal Request := do
  let (p, rest) ← p.read parseOptions true (← sorted parseOptions words)
  match takeOperand? rest with
  | none => .error .misuse
  | some (source, rest) =>
    let (p, _) ← p.read parseOptions false rest
    let s ← p.settle
    return ⟨s.verbose, .parse source s.literal s.indent⟩

def Request.ofWords (words : List String) : Except Refusal Request := do
  let (p, rest) ← Progress.start.read commonOptions true (← sorted commonOptions words)
  match rest with
  | ⟨"build", .operand⟩ :: rest => readBuild p (rest.map Word.text)
  | ⟨"parse", .operand⟩ :: rest => readParse p (rest.map Word.text)
  | _ => .error .misuse

end ModelScript.CommandLine
