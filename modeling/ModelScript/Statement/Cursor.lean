import ModelScript.Statement.Parser

/-!
# Cursors

A position in a list of tokens, for reading a file step by step.  A cursor and the unread tokens
behind it say the same: a reader is run on the unread tokens, and the cursor moves to where they
then begin.
-/

namespace ModelScript

/-- A position among the tokens of a file, and the line reached. -/
structure Cursor where
  tokens : List Token
  position : Nat
  line : Nat
  deriving DecidableEq, Repr

namespace Cursor

/-- The cursor in front of all tokens. -/
def start (tokens : List Token) (line : Nat) : Cursor := ⟨tokens, 0, line⟩

/-- The token at the cursor. -/
def current? (c : Cursor) : Option Token := c.tokens[c.position]?

/-- Whether no token is left. -/
def atEnd (c : Cursor) : Bool := c.tokens.length ≤ c.position

/-- Whether the token at the cursor has one of the given kinds. -/
def check (c : Cursor) (kinds : List Kind) : Bool := c.current?.any fun t => kinds.contains t.kind

/-- The tokens from the cursor on. -/
def unread (c : Cursor) : Unread := ⟨c.tokens.drop c.position, c.line⟩

/-- The cursor where the tokens `u` are left. -/
def toUnread (c : Cursor) (u : Unread) : Cursor :=
  { c with position := c.tokens.length - u.tokens.length, line := u.line }

/-- Takes one token, if there is one. -/
def advance? (c : Cursor) : Option (Token × Cursor) :=
  c.current?.map fun t => (t, c.toUnread (c.unread.skip 1))

/-- Takes the tokens in front of an index, if there are so many. -/
def advanceTo? (c : Cursor) (index : Nat) : Option Cursor :=
  if index ≤ c.position then some c
  else if c.tokens.length < index then none
  else some (c.toUnread (c.unread.skip (index - c.position)))

def skipNewlines (c : Cursor) : Cursor := c.toUnread c.unread.skipNewlines

def run {α : Type} (read : Reader α) (c : Cursor) : Reading (α × Cursor) := do
  let (a, u) ← read c.unread
  return (a, c.toUnread u)

/-- Runs a reader that takes all tokens from the cursor on. -/
def runWhole {α : Type} (read : WholeReader α) (c : Cursor) : Reading (α × Cursor) := do
  let (a, line) ← read c.unread
  return (a, c.toUnread ⟨[], line⟩)

/-- The index behind the value that starts at an index. -/
def valueEnd (c : Cursor) (start : Nat) : Nat :=
  start + Unread.valueLength 0 none (c.tokens.drop start)

/-- Whether the value that starts at an index goes on behind a line break. -/
def continuesAfter (c : Cursor) (start newline : Nat) : Bool :=
  Unread.continues (Token.significant? ((c.tokens.take newline).drop start).reverse)
    (c.tokens.drop newline)

end Cursor

end ModelScript
