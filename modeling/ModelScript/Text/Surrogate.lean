import ModelScript.Text.Quoted

/-!
# Halves of surrogate pairs

A text that comes from outside may hold halves of surrogate pairs, which are no characters.  In the
name of a file those from U+DC80 to U+DCFF stand for the bytes from 80 to FF; no bytes are written
for any other half.
-/

namespace ModelScript.Text

/-- A character, or half of a surrogate pair. -/
abbrev CodePoint := Fin 0x110000

def CodePoint.isHalf (c : CodePoint) : Bool := 0xD800 ≤ c.val && c.val < 0xE000

/-- Whether a half stands for a byte. -/
def CodePoint.isByte (c : CodePoint) : Bool := 0xDC80 ≤ c.val && c.val < 0xDD00

/-- Halves in a row that cannot be written, from a position on. -/
structure Unencodable where
  position : Nat
  first : CodePoint
  others : List CodePoint
  deriving DecidableEq, Repr

/-- The first halves that cannot be written in the name of a file.  Behind the first of them those
that stand for bytes are at fault too. -/
def unencodable? (position : Nat) : List CodePoint → Option Unencodable
  | [] => none
  | c :: rest =>
    if c.isHalf && !c.isByte then some ⟨position, c, rest.takeWhile CodePoint.isHalf⟩
    else unencodable? (position + 1) rest

/-- The half itself if it is only one, and positions otherwise. -/
def Unencodable.message (f : Unencodable) : String :=
  let place :=
    if f.others.isEmpty then
      s!"character '\\u{String.ofList (hexDigits 4 f.first.val)}' in position {f.position}"
    else s!"characters in position {f.position}-{f.position + f.others.length}"
  s!"'utf-8' codec can't encode {place}: surrogates not allowed"

end ModelScript.Text
