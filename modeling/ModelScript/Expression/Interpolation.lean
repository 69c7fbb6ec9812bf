/-!
# Interpolations

Where the text of a string literal holds expressions.  An interpolation is written `$` and an
expression in curly braces; at the very start of the text the braces alone will do.  A dollar sign
after an odd number of backslashes is escaped.  The braces of an interpolation have to balance, and
one that is never closed is plain text.
-/

namespace ModelScript

/-- An interpolation: where its marker begins, and the places of its two braces. -/
structure Interpolation where
  marker : Nat
  opening : Nat
  closing : Nat
  deriving DecidableEq, Repr

namespace Interpolation

/-- The distance to the brace that brings the depth to zero. -/
def closeAfter? : Nat → List Char → Option Nat
  | _, [] => none
  | depth, '\x7b' :: rest => (· + 1) <$> closeAfter? (depth + 1) rest
  | depth, '\x7d' :: rest => if depth ≤ 1 then some 0 else (· + 1) <$> closeAfter? (depth - 1) rest
  | depth, _ :: rest => (· + 1) <$> closeAfter? depth rest

/-- The interpolation that begins at `index`, where `text` goes on, if one does.  `escaped` says
whether an odd number of backslashes stands right before. -/
def startingAt? (index : Nat) (escaped : Bool) (text : List Char) : Option Interpolation :=
  match text with
  | '\x7b' :: rest =>
    if index = 0 then (fun n => ⟨0, 0, n + 1⟩) <$> closeAfter? 1 rest else none
  | '$' :: '\x7b' :: rest =>
    if escaped then none
    else (fun n => ⟨index, index + 1, index + 2 + n⟩) <$> closeAfter? 1 rest
  | _ => none

/-- The interpolations of the text that goes on at `index`, the next `skip` characters belonging to
the one found last. -/
def scan : Nat → Bool → Nat → List Char → List Interpolation
  | _, _, _, [] => []
  | index, _, skip + 1, _ :: rest => scan (index + 1) false skip rest
  | index, escaped, 0, c :: rest =>
    match startingAt? index escaped (c :: rest) with
    | some i => i :: scan (index + 1) false (i.closing - index) rest
    | none => scan (index + 1) (c = '\\' && !escaped) 0 rest

/-- The interpolations of a text, in order. -/
def ranges (text : List Char) : List Interpolation := scan 0 false 0 text

end Interpolation

end ModelScript
