import ModelScript.Text.Quoted

/-!
# Strict UTF-8

Reading bytes as UTF-8.  A lead byte says how many continuation bytes follow and within which
bounds the first of them lies, so neither an overlong form nor a surrogate is read.  A fault names
the bytes that cannot be read: a byte that starts nothing, the bytes before one that does not
continue them, or an unfinished end of the text.
-/

namespace ModelScript.Text.Utf8

/-- What keeps bytes from being UTF-8. -/
inductive Reason where
  | invalidStart
  | invalidContinuation
  | unexpectedEnd
  deriving DecidableEq, Repr

/-- The bytes from position `first` to position `last` cannot be read. -/
structure Fault where
  first : Nat
  last : Nat
  /-- The byte at position `first`. -/
  byte : UInt8
  reason : Reason
  deriving DecidableEq, Repr

def Reason.message : Reason → String
  | .invalidStart => "invalid start byte"
  | .invalidContinuation => "invalid continuation byte"
  | .unexpectedEnd => "unexpected end of data"

/-- How a fault is worded: the byte itself if it is only one, and positions otherwise. -/
def Fault.message (f : Fault) : String :=
  let place :=
    if f.first = f.last then
      s!"byte 0x{String.ofList (hexDigits 2 f.byte.toNat)} in position {f.first}"
    else s!"bytes in position {f.first}-{f.last}"
  s!"'utf-8' codec can't decode {place}: {f.reason.message}"

/-- What a lead byte asks for: its share of the code point, the number of continuation bytes, and
the bounds of the first of them. -/
structure Lead where
  bits : Nat
  owed : Nat
  low : UInt8
  high : UInt8
  deriving DecidableEq, Repr

/-- The demands of a byte that starts a character, if it can. -/
def lead? (b : UInt8) : Option Lead :=
  if b < 0x80 then some ⟨b.toNat, 0, 0x80, 0xBF⟩
  else if b < 0xC2 then none
  else if b < 0xE0 then some ⟨b.toNat - 0xC0, 1, 0x80, 0xBF⟩
  else if b = 0xE0 then some ⟨0, 2, 0xA0, 0xBF⟩
  else if b = 0xED then some ⟨0xD, 2, 0x80, 0x9F⟩
  else if b < 0xF0 then some ⟨b.toNat - 0xE0, 2, 0x80, 0xBF⟩
  else if b = 0xF0 then some ⟨0, 3, 0x90, 0xBF⟩
  else if b < 0xF4 then some ⟨b.toNat - 0xF0, 3, 0x80, 0xBF⟩
  else if b = 0xF4 then some ⟨4, 3, 0x80, 0x8F⟩
  else none

/-- A character under way: where it started, with which byte, and what is still owed. -/
structure Pending where
  start : Nat
  byte : UInt8
  lead : Lead

/-- Reads the bytes from position `position` on; `pending` is the character under way. -/
def scan : Nat → Option Pending → List UInt8 → Except Fault (List Char)
  | _, none, [] => .ok []
  | position, some p, [] => .error ⟨p.start, position - 1, p.byte, .unexpectedEnd⟩
  | position, none, b :: rest =>
    match lead? b with
    | none => .error ⟨position, position, b, .invalidStart⟩
    | some ⟨bits, 0, _, _⟩ => (Char.ofNat bits :: ·) <$> scan (position + 1) none rest
    | some lead => scan (position + 1) (some ⟨position, b, lead⟩) rest
  | position, some p, b :: rest =>
    if p.lead.low ≤ b && b ≤ p.lead.high then
      let bits := p.lead.bits * 64 + (b.toNat - 0x80)
      if p.lead.owed ≤ 1 then (Char.ofNat bits :: ·) <$> scan (position + 1) none rest
      else
        scan (position + 1) (some ⟨p.start, p.byte, ⟨bits, p.lead.owed - 1, 0x80, 0xBF⟩⟩) rest
    else .error ⟨p.start, position - 1, p.byte, .invalidContinuation⟩

/-- Reads bytes as UTF-8 text. -/
def decode (bytes : List UInt8) : Except Fault (List Char) := scan 0 none bytes

def encode (text : String) : List UInt8 := text.toUTF8.data.toList

end ModelScript.Text.Utf8
