/-!
# Tokens

A source text is read as a sequence of tokens.  Identifiers, literals and operators carry the text
they were written with; a keyword stands for one word, and a punctuation mark for one character.
`Token.kind` forgets the text, and `Kind.ofName` finds a kind by the name messages give it.
-/

namespace ModelScript

/-! ## Words and marks -/

inductive Bracket where
  | round
  | square
  | curly
  deriving DecidableEq, Repr

/-- The reserved words that introduce or separate the parts of a statement. -/
inductive Keyword where
  | describe
  | return'
  | while'
  | from'
  | let'
  | make
  | as'
  | be
  | if'
  | else'
  | private'
  | static
  | default
  | of
  deriving DecidableEq, Repr

namespace Keyword

def all : List Keyword :=
  [describe, return', while', from', let', make, as', be, if', else', private', static, default, of]

def word : Keyword → String
  | describe => "describe"
  | return' => "return"
  | while' => "while"
  | from' => "from"
  | let' => "let"
  | make => "make"
  | as' => "as"
  | be => "be"
  | if' => "if"
  | else' => "else"
  | private' => "private"
  | static => "static"
  | default => "default"
  | of => "of"

def ofWord? (text : String) : Option Keyword := all.find? (·.word == text)

end Keyword

inductive Mark where
  | comma
  | colon
  | dot
  | equals
  | opening (bracket : Bracket)
  | closing (bracket : Bracket)
  deriving DecidableEq, Repr

namespace Mark

def all : List Mark :=
  [comma, colon, dot, equals, opening .round, closing .round, opening .square, closing .square,
    opening .curly, closing .curly]

def symbol : Mark → Char
  | comma => ','
  | colon => ':'
  | dot => '.'
  | equals => '='
  | opening .round => '('
  | closing .round => ')'
  | opening .square => '['
  | closing .square => ']'
  | opening .curly => '\x7b'
  | closing .curly => '\x7d'

def name : Mark → String
  | comma => "COMMA"
  | colon => "COLON"
  | dot => "DOT"
  | equals => "EQUALS"
  | opening .round => "LPAREN"
  | closing .round => "RPAREN"
  | opening .square => "LBRACK"
  | closing .square => "RBRACK"
  | opening .curly => "LBRACE"
  | closing .curly => "RBRACE"

end Mark

/-! ## Kinds -/

/-- What a token is, its text apart.  `other` is a kind that no token has. -/
inductive Kind where
  | ident
  | integer
  | float
  | string
  | boolean
  | operator
  | prefixOperator
  | newline
  | keyword (word : Keyword)
  | mark (mark : Mark)
  | other (name : String)
  deriving DecidableEq, Repr

namespace Kind

def name : Kind → String
  | ident => "IDENT"
  | integer => "INTEGER"
  | float => "FLOAT"
  | string => "STRING"
  | boolean => "BOOLEAN"
  | operator => "OPERATOR"
  | prefixOperator => "PREFIX_OPERATOR"
  | newline => "NEWLINE"
  | keyword k => String.ofList (k.word.toList.map Char.toUpper)
  | mark m => m.name
  | other name => name

def all : List Kind :=
  [ident, integer, float, string, boolean, operator, prefixOperator, newline]
    ++ Keyword.all.map keyword ++ Mark.all.map mark

/-- The kind of a given name; a name that is in no table is a kind without tokens. -/
def ofName (name : String) : Kind := (all.find? (·.name == name)).getD (other name)

/-- How a message asks for a token of a kind: by its symbol, or by its name in lower case. -/
def label : Kind → String
  | mark m => String.singleton m.symbol
  | k => String.ofList (k.name.toList.map Char.toLower)

end Kind

/-! ## Tokens -/

/-- One token.  A string token holds what stands between its quotes, escapes included. -/
inductive Token where
  | ident (name : String)
  | integer (text : String)
  | float (text : String)
  | string (raw : String)
  | boolean (text : String)
  | operator (text : String)
  | prefixOperator (text : String)
  | newline
  | keyword (word : Keyword)
  | mark (mark : Mark)
  deriving DecidableEq, Repr

namespace Token

def kind : Token → Kind
  | ident _ => .ident
  | integer _ => .integer
  | float _ => .float
  | string _ => .string
  | boolean _ => .boolean
  | operator _ => .operator
  | prefixOperator _ => .prefixOperator
  | newline => .newline
  | keyword k => .keyword k
  | mark m => .mark m

/-- The text that a token carries. -/
def payload? : Token → Option String
  | ident s | integer s | float s | string s | boolean s | operator s | prefixOperator s => some s
  | keyword k => some k.word
  | newline | mark _ => none

/-- How a message shows a token. -/
def describe (t : Token) : String :=
  match t.payload? with
  | none => s!"Token({t.kind.name})"
  | some text => s!"Token({t.kind.name}, {text})"

def isNewline : Token → Bool
  | newline => true
  | _ => false

end Token

/-- How a message shows the token at some place, if there is one. -/
def describeToken? : Option Token → String
  | none => "None"
  | some t => t.describe

end ModelScript
