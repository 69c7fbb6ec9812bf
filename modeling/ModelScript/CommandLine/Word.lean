import ModelScript.Text.DecimalDigit

/-!
# Words of a command line

Sorts the words of a command line by what they can mean to a command with options of given names.
An option is named in full, by a beginning of a long name that no other name shares, or, if its name
is a dash and a letter, together with what follows in the same word.  A word with a dash in front
that reads as a negative number or has a space in it is an operand all the same.  Behind `--` there
are operands only.
-/

namespace ModelScript.CommandLine

/-- What a word can mean. -/
inductive Role where
  | operand
  /-- The word `--`, behind which there are operands only. -/
  | dashes
  /-- An option, with the text that stands in the same word: behind an equals sign, or right behind
  the name of a short option. -/
  | option (name : String) (attached : Option (List Char))
  /-- An option that there is not. -/
  | unknown
  deriving DecidableEq, Repr

/-- A word with its role. -/
structure Word where
  text : String
  role : Role
  deriving DecidableEq, Repr

/-! ## Sorting one word -/

/-- The text in front of the first equals sign of a word, and the text behind it, if it has one. -/
def splitEquals (word : List Char) : List Char × Option (List Char) :=
  match word.dropWhile (· ≠ '=') with
  | [] => (word, none)
  | _ :: text => (word.takeWhile (· ≠ '='), some text)

/-- Whether a text is digits and nothing else, and not empty. -/
def isDigits (cs : List Char) : Bool := !cs.isEmpty && cs.all Text.isDecimalDigit

def withoutLastBreak (cs : List Char) : List Char :=
  if cs.getLast? = some '\n' then cs.dropLast else cs

/-- Whether a word reads as a negative number; a line break may follow it. -/
def isNegativeNumber : List Char → Bool
  | '-' :: rest =>
    let cs := withoutLastBreak rest
    isDigits cs
      || (match cs.dropWhile Text.isDecimalDigit with
        | '.' :: fraction => isDigits fraction
        | _ => false)
  | _ => false

/-- The options that a word with a dash in front can stand for if it is no name itself. -/
def readings (names : List String) (word : List Char) : List Role :=
  match word with
  | '-' :: '-' :: _ =>
    let (front, attached) := splitEquals word
    (names.filter fun name => front.isPrefixOf name.toList).map (.option · attached)
  | '-' :: letter :: rest =>
    (names.filter (· = String.ofList ['-', letter])).map (.option · (some rest))
  | _ => []

/-- What a word in front of `--` can mean, if it is not ambiguous. -/
def roleOf? (names : List String) (word : String) : Option Role :=
  let cs := word.toList
  if names.contains word then some (.option word none)
  else if cs.head? ≠ some '-' || cs.length = 1 then some .operand
  else
    let (front, attached) := splitEquals cs
    if names.contains (String.ofList front) then some (.option (String.ofList front) attached)
    else
      match readings names cs with
      | [role] => some role
      | _ :: _ => none
      | [] => some (if isNegativeNumber cs || cs.contains ' ' then .operand else .unknown)

/-! ## Sorting all words -/

/-- Sorts the words of a command line for a command with options of the given names, if none of
them is ambiguous. -/
def sortWords? (names : List String) : List String → Option (List Word)
  | [] => some []
  | "--" :: rest => some (⟨"--", .dashes⟩ :: rest.map (⟨·, .operand⟩))
  | word :: rest => do return ⟨word, ← roleOf? names word⟩ :: (← sortWords? names rest)

end ModelScript.CommandLine
