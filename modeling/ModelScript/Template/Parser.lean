import ModelScript.Template.Piece

/-!
# Reading templates

A template is cut into literal text and tags, and the tags of sections are matched up.  Comments
leave nothing behind.  One line break at the very end of a template does not belong to it.
-/

namespace ModelScript

namespace Piece

/-! ## Words inside a tag -/

/-- The words inside a tag. -/
inductive Word where
  | name (text : String)
  | quoted (text : String)
  | symbol (c : Char)
  deriving DecidableEq, Repr

/-- The character that a letter stands for behind a backslash. -/
def escape? : Char → Option Char
  | '\\' => some '\\'
  | '\'' => some '\''
  | '"' => some '"'
  | 'n' => some '\n'
  | 'r' => some '\r'
  | 't' => some '\t'
  | 'a' => some '\x07'
  | 'b' => some '\x08'
  | 'f' => some '\x0c'
  | 'v' => some '\x0b'
  | _ => none

/-- Replaces escapes; a backslash in front of any other character stays. -/
def unescape : List Char → List Char
  | [] => []
  | '\\' :: c :: rest =>
    match escape? c with
    | some d => d :: unescape rest
    | none => '\\' :: c :: unescape rest
  | c :: rest => c :: unescape rest

/-- The length of a quoted text up to its closing quote. -/
def quoteLength? : List Char → Option Nat
  | [] => none
  | '\'' :: _ => some 0
  | '\\' :: _ :: rest => (· + 2) <$> quoteLength? rest
  | _ :: rest => (· + 1) <$> quoteLength? rest

def isNameCharacter (c : Char) : Bool := c.isAlphanum || c = '_'

def isBlank (c : Char) : Bool := c = ' ' || c = '\t' || c = '\n' || c = '\x0b' || c = '\x0c'

/-- The words of a tag after its first `skip` characters, and the text behind the tag, which ends
with the character `last` and a closing brace. -/
def words? (last : Char) : Nat → List Char → Option (List Word × List Char)
  | _, [] => none
  | skip + 1, _ :: rest => words? last skip rest
  | 0, c :: rest =>
    if c = last && rest.head? = some '\x7d' then some ([], rest.tail)
    else if isBlank c then words? last 0 rest
    else if c = '\'' then do
      let length ← quoteLength? rest
      let (ws, after) ← words? last (length + 1) rest
      return (.quoted (String.ofList (unescape (rest.take length))) :: ws, after)
    else if isNameCharacter c then do
      let more := rest.takeWhile isNameCharacter
      let (ws, after) ← words? last more.length rest
      return (.name (String.ofList (c :: more)) :: ws, after)
    else do
      let (ws, after) ← words? last 0 rest
      return (.symbol c :: ws, after)

/-- The joiner that a word names. -/
def joiner? : Word → Option Joiner
  | .quoted text => some (.fixed text)
  | .name name => some (.field name)
  | .symbol _ => none

/-- The slot that the words of a tag describe. -/
def slot? : List Word → Option Slot
  | [.name name] => some (.text name)
  | [.name "render", .symbol '(', .name name, .symbol ')'] => some (.rendered name)
  | [.name name, .symbol '|', .name "render"] => some (.rendered name)
  | [.name name, .symbol '|', .name "map", .symbol '(', .quoted "render", .symbol ')',
      .symbol '|', .name "join", .symbol '(', joiner, .symbol ')'] =>
    .joined name true <$> joiner? joiner
  | [.name name, .symbol '|', .name "join", .symbol '(', joiner, .symbol ')'] =>
    .joined name false <$> joiner? joiner
  | _ => none

/-! ## Tags -/

/-- A template cut at its tags. -/
inductive Tag where
  | literal (c : Char)
  | slot (slot : Slot)
  | ifDefined (name : String)
  | otherwise
  | done
  deriving DecidableEq, Repr

/-- The tag of a section that some words describe. -/
def sectionTag? : List Word → Option Tag
  | [.name "if", .name name, .name "is", .name "defined"] => some (.ifDefined name)
  | [.name "else"] => some .otherwise
  | [.name "endif"] => some .done
  | _ => none

/-- The number of characters up to the end of a comment. -/
def commentLength? : List Char → Option Nat
  | [] => none
  | '#' :: '\x7d' :: _ => some 2
  | _ :: rest => (· + 1) <$> commentLength? rest

/-- The tag or literal character at the front of a template, none for a comment, and the number of
characters it takes. -/
def tagAt? : List Char → Option (Option Tag × Nat)
  | '\x7b' :: '#' :: rest => do return (none, 2 + (← commentLength? rest))
  | '\x7b' :: '\x7b' :: rest => do
    let (ws, after) ← words? '\x7d' 0 rest
    return (some (.slot (← slot? ws)), 2 + rest.length - after.length)
  | '\x7b' :: '%' :: rest => do
    let (ws, after) ← words? '%' 0 rest
    return (some (← sectionTag? ws), 2 + rest.length - after.length)
  | c :: _ => some (some (.literal c), 1)
  | [] => none

/-- Cuts a template at its tags, after its first `skip` characters. -/
def tags? : Nat → List Char → Option (List Tag)
  | _, [] => some []
  | skip + 1, _ :: rest => tags? skip rest
  | 0, c :: rest => do
    let (tag, length) ← tagAt? (c :: rest)
    let more ← tags? (length - 1) rest
    return tag.toList ++ more

/-! ## Sections -/

/-- A section under way: its name, and what is there if the field is present, once that is read. -/
structure OpenSection where
  name : String
  present : Option (List Piece)
  /-- The pieces in front of the section, from the last to the first. -/
  before : List Piece

/-- Matches the tags of sections.  `pieces` are those read since the last tag of a section, from the
last to the first. -/
def matchSections : List OpenSection → List Piece → List Tag → Option (List Piece)
  | [], pieces, [] => some pieces.reverse
  | _ :: _, _, [] => none
  | stack, pieces, .literal c :: rest =>
    matchSections stack (.literal c :: pieces) rest
  | stack, pieces, .slot s :: rest => matchSections stack (.slot s :: pieces) rest
  | stack, pieces, .ifDefined name :: rest => matchSections (⟨name, none, pieces⟩ :: stack) [] rest
  | ⟨name, none, before⟩ :: stack, pieces, .otherwise :: rest =>
    matchSections (⟨name, some pieces.reverse, before⟩ :: stack) [] rest
  | ⟨name, none, before⟩ :: stack, pieces, .done :: rest =>
    matchSections stack (.section name pieces.reverse [] :: before) rest
  | ⟨name, some present, before⟩ :: stack, pieces, .done :: rest =>
    matchSections stack (.section name present pieces.reverse :: before) rest
  | _, _, .otherwise :: _ => none
  | [], _, .done :: _ => none

/-- A template without the line break at its end. -/
def dropLastNewline (text : List Char) : List Char :=
  if text.getLast? = some '\n' then text.dropLast else text

def ofText? (text : List Char) : Option (List Piece) := do
  matchSections [] [] (← tags? 0 (dropLastNewline text))

end Piece

end ModelScript
