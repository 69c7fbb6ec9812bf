import ModelScript.Reading
import ModelScript.Scope

/-!
# Unread tokens

What is left of a token list while statements are read from its front, with the line its first
token stands in.  Taking a line break moves the line on by one, so the line counts exactly the line
breaks that have been taken.
-/

namespace ModelScript

/-- The tokens still to be read, and the line reached. -/
structure Unread where
  tokens : List Token
  line : Nat
  deriving DecidableEq, Repr

namespace Unread

/-- What is left after the first `count` tokens. -/
def skip (u : Unread) (count : Nat) : Unread :=
  ⟨u.tokens.drop count, u.line + Token.newlines (u.tokens.take count)⟩

/-- What is left after the line breaks at the front. -/
def skipNewlines (u : Unread) : Unread :=
  ⟨Token.trimStart u.tokens, u.line + Token.leadingNewlines u.tokens⟩

def kind? (u : Unread) : Option Kind := u.tokens.head?.map Token.kind

def startsWith (u : Unread) (k : Kind) : Bool := u.kind? == some k

/-- Takes the next token, if its kind is the given one. -/
def accept? (u : Unread) (k : Kind) : Option (Token × Unread) :=
  match u.tokens with
  | t :: _ => if t.kind = k then some (t, u.skip 1) else none
  | [] => none

/-- Stops at the line reached. -/
def fault {α : Type} (u : Unread) (file : String) (problem : Problem) : Reading α :=
  .fault file u.line problem

/-- Takes the next token, which has to be of the given kind. -/
def require (file : String) (k : Kind) (u : Unread) : Reading (Token × Unread) :=
  match u.accept? k with
  | some taken => return taken
  | none => u.fault file (.noToken k u.tokens.head?)

def word (file : String) (k : Keyword) (u : Unread) : Reading Unread :=
  (·.2) <$> u.require file (.keyword k)

def identifier (file : String) (u : Unread) : Reading (String × Unread) :=
  match u.tokens with
  | .ident name :: _ => return (name, u.skip 1)
  | _ => u.fault file (.noIdentifier u.tokens.head?)

/-- A statement has to end here: at a line break or at the end of the tokens. -/
def requireEnd (file : String) (u : Unread) : Reading Unit :=
  match u.tokens with
  | [] | .newline :: _ => return ()
  | t :: _ => u.fault file (.leftover t)

theorem skip_zero (u : Unread) : u.skip 0 = u := rfl

theorem skip_skip (u : Unread) (m n : Nat) : (u.skip m).skip n = u.skip (m + n) := by
  unfold skip
  rw [List.drop_drop, List.take_add, Token.newlines_append, Nat.add_assoc]

/-- Skipping the line breaks at the front is skipping as many tokens as there are of them. -/
theorem skipNewlines_eq (u : Unread) :
    u.skipNewlines = u.skip (Token.leadingNewlines u.tokens) := by
  obtain ⟨tokens, line⟩ := u
  unfold skipNewlines skip
  rw [Token.newlines_take_leadingNewlines, Token.drop_leadingNewlines]

/-! ## How far a value goes -/

/-- Whether a line break between two runs of tokens continues a value: it does after an operator
and before one.  `previous` is the last token in front of it that is no line break. -/
def continues (previous : Option Token) (following : List Token) : Bool :=
  (match previous with
    | some (.operator _) | some (.prefixOperator _) => true
    | _ => false) ||
  (match Token.significant? following with
    | some (.operator _) => true
    | _ => false)

/-- The number of tokens that belong to a value.  It ends before a curly brace or a line break that
stands in no parentheses or square brackets and continues nothing, and before a closing one that it
has not opened. -/
def valueLength : Nat → Option Token → List Token → Nat
  | _, _, [] => 0
  | depth, previous, t :: rest =>
    match t with
    | .mark (.opening .curly) | .mark (.closing .curly) =>
      if depth = 0 then 0 else valueLength depth (some t) rest + 1
    | .mark (.opening _) => valueLength (depth + 1) (some t) rest + 1
    | .mark (.closing _) =>
      if depth = 0 then 0 else valueLength (depth - 1) (some t) rest + 1
    | .newline =>
      if depth = 0 && !continues previous rest then 0 else valueLength depth previous rest + 1
    | _ => valueLength depth (some t) rest + 1

end Unread

end ModelScript
