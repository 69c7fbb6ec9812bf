import ModelScript.Text.DecimalDigit
import ModelScript.Text.WordCharacter
import ModelScript.Token.Basic

/-!
# Lexical classes

What the lexer can find at a place of the source: blanks, comments, line breaks, the operators, the
two prefix operators, labels, the literals and the punctuation marks.  `LexicalClass.length` says
how much text a class takes there, nothing if it does not fit.  The order of `LexicalClass.all` is
part of the language: the first class that fits wins, so a longer operator stands before the shorter
one it begins with, operators spelled as words before labels, and floats before integers.
-/

namespace ModelScript

/-- The operators, each before those it begins with. -/
def operatorSpellings : List String :=
  ["===", "==", "!=", "<=", ">=", "&&", "||", "<", ">", "+", "-", "*", "/", "%",
    "and", "or", "plus", "minus", "times", "over"]

/-- The operators that take one operand. -/
def prefixSpellings : List String := ["not", "!"]

/-- The operators that also stand before a single operand. -/
def signSpellings : List String := ["-", "minus"]

def booleanWords : List String := ["true", "false"]

inductive LexicalClass where
  | blank
  | comment
  | newline
  | operator (spelling : String)
  | prefixOperator (spelling : String)
  | label
  | string
  | float
  | integer
  | mark (mark : Mark)
  deriving DecidableEq, Repr

namespace LexicalClass

/-- Every class, in the order in which they are tried. -/
def all : List LexicalClass :=
  [blank, comment, newline] ++ operatorSpellings.map operator
    ++ prefixSpellings.map prefixOperator ++ [label, string, float, integer] ++ Mark.all.map mark

/-! ## Characters -/

/-- A space, a tab or a carriage return. -/
def isBlank (c : Char) : Bool := c = ' ' || c = '\t' || c = '\r'

def beginsLabel (c : Char) : Bool := c.isAlpha || c = '_'

def continuesLabel (c : Char) : Bool := c.isAlphanum || c = '_'

/-! ## How much a class takes -/

/-- The length of a fixed spelling at the front, unless a character that `stop` refuses follows. -/
def spelled (spelling : List Char) (stop : Char → Bool) (cs : List Char) : Nat :=
  if spelling.isPrefixOf cs && !(cs.drop spelling.length).head?.any stop then spelling.length else 0

/-- What must not follow an operator: a word ends at a word boundary, and `!=` is not `!`. -/
def refusedAfter (spelling : List Char) : Char → Bool :=
  if spelling.all Char.isAlpha then Text.isWordCharacter
  else if spelling = ['!'] then (· = '=')
  else fun _ => false

/-- The length of a string's rest up to its closing quote.  A backslash takes the next character
along, and neither may be a line break. -/
def stringTail? : List Char → Option Nat
  | [] => none
  | '"' :: _ => some 1
  | '\n' :: _ => none
  | ['\\'] => none
  | '\\' :: '\n' :: _ => none
  | '\\' :: _ :: rest => (· + 2) <$> stringTail? rest
  | _ :: rest => (· + 1) <$> stringTail? rest

/-- The number of decimal digits at the front. -/
def digitCount (cs : List Char) : Nat := (cs.takeWhile Text.isDecimalDigit).length

/-- The length of the text of a class at the front of `cs`, zero if it does not fit. -/
def length : LexicalClass → List Char → Nat
  | blank, cs => (cs.takeWhile isBlank).length
  | comment, '#' :: rest => (rest.takeWhile (· ≠ '\n')).length + 1
  | newline, '\n' :: _ => 1
  | operator s, cs | prefixOperator s, cs => spelled s.toList (refusedAfter s.toList) cs
  | label, c :: rest => if beginsLabel c then (rest.takeWhile continuesLabel).length + 1 else 0
  | string, '"' :: rest => ((· + 1) <$> stringTail? rest).getD 0
  | float, cs =>
    let whole := digitCount cs
    match cs.drop whole with
    | '.' :: rest => if whole = 0 || digitCount rest = 0 then 0 else whole + 1 + digitCount rest
    | _ => 0
  | integer, cs => digitCount cs
  | mark m, c :: _ => if c = m.symbol then 1 else 0
  | _, _ => 0

/-- The first class that fits at the front of `cs`, with the length of its text. -/
def first? (cs : List Char) : Option (LexicalClass × Nat) :=
  all.findSome? fun l => if l.length cs = 0 then none else some (l, l.length cs)

theorem mem_of_first? {cs : List Char} {l : LexicalClass} {n : Nat} (h : first? cs = some (l, n)) :
    l ∈ all ∧ l.length cs = n ∧ 0 < n := by
  obtain ⟨l', hl, hn⟩ := List.exists_of_findSome?_eq_some h
  split at hn
  · cases hn
  · cases hn
    exact ⟨hl, rfl, by omega⟩

/-! ## What a class stands for -/

/-- The token of a label: a keyword, a truth value or an identifier. -/
def labelToken (text : String) : Token :=
  match Keyword.ofWord? text with
  | some k => .keyword k
  | none => if booleanWords.contains text then .boolean text else .ident text

/-- The token for a text of a class; blanks and comments stand for none. -/
def token? : LexicalClass → List Char → Option Token
  | blank, _ | comment, _ => none
  | newline, _ => some .newline
  | operator s, _ => some (.operator s)
  | prefixOperator s, _ => some (.prefixOperator s)
  | label, text => some (labelToken (String.ofList text))
  | string, text => some (.string (String.ofList text.tail.dropLast))
  | float, text => some (.float (String.ofList text))
  | integer, text => some (.integer (String.ofList text))
  | mark m, _ => some (.mark m)

end LexicalClass

end ModelScript
