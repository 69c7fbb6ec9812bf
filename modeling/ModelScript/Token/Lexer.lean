import ModelScript.Fault
import ModelScript.Token.LexicalClass
import ModelScript.Token.Stream

/-!
# The lexer

Reads a source text as tokens.  `scan` walks the characters one by one and counts in `skip` those
that the last token has already taken, so each character moves the place exactly once.  `next`
stops at the first token, and `Stream.next` lets a caller read token by token.
-/

namespace ModelScript

namespace Lexer

/-- The tokens of `cs` after its first `skip` characters, read from `place` on. -/
def scan (file : String) : Place → Nat → List Char → Except Fault (List Token)
  | _, _, [] => .ok []
  | place, skip + 1, c :: cs => scan file (place.after c) skip cs
  | place, 0, c :: cs =>
    match LexicalClass.first? (c :: cs) with
    | none => .error ⟨file, place.line, .unrecognized c place.column⟩
    | some (l, n) => do
      let tokens ← scan file (place.after c) (n - 1) cs
      return (l.token? ((c :: cs).take n)).toList ++ tokens

/-- The first token of `cs` after its first `skip` characters, and the place after it. -/
def next (file : String) : Place → Nat → List Char → Except Fault (Option Token × Place)
  | place, _, [] => .ok (none, place)
  | place, skip + 1, c :: cs => next file (place.after c) skip cs
  | place, 0, c :: cs =>
    match LexicalClass.first? (c :: cs) with
    | none => .error ⟨file, place.line, .unrecognized c place.column⟩
    | some (l, n) =>
      match l.token? ((c :: cs).take n) with
      | some t => .ok (some t, place.past ((c :: cs).take n))
      | none => next file (place.after c) (n - 1) cs

end Lexer

/-- The tokens of a text whose first line has the number `line`. -/
def tokenize (file : String) (line : Nat) (source : List Char) : Except Fault (List Token) :=
  Lexer.scan file ⟨0, line, 1⟩ 0 source

/-- Reads one token from a stream, or none at its end. -/
def Stream.next (file : String) (s : Stream) : Except Fault (Option Token × Stream) := do
  let (token, place) ← Lexer.next file s.place 0 s.rest
  return (token, { s with place })

end ModelScript
