import ModelScript.Text.Numeral

/-!
# JSON documents

Reads JSON text.  Besides the numbers of JSON, `NaN`, `Infinity` and `-Infinity` count as numbers.
Of fields with the same name the last one counts, in the place of the first.  A string may escape
half of a surrogate pair, and is then no text; such strings are read but have no content.
-/

namespace ModelScript

/-- A JSON document.  A string without content is no sequence of characters. -/
inductive Document where
  | null
  | boolean (value : Bool)
  | number
  | string (content : Option String)
  | array (items : List Document)
  | object (fields : List (Option String × Document))
  deriving Repr

namespace Document

/-- Why a text is not read as a document. -/
inductive Refusal where
  /-- The text is no JSON. -/
  | malformed
  /-- A whole number has so many digits that it is not read. -/
  | tooManyDigits (digits : Nat)
  deriving DecidableEq, Repr

/-- A computation that reads JSON text. -/
abbrev Reads := Except Refusal

/-- The fields with one more; a field of the same name takes the new value. -/
def setField (fields : List (Option String × Document)) (name : Option String) (value : Document) :
    List (Option String × Document) :=
  if fields.any (·.1 = name) then
    fields.map fun field => if field.1 = name then (name, value) else field
  else fields ++ [(name, value)]

def field? (fields : List (Option String × Document)) (name : String) : Option Document :=
  fields.lookup (some name)

/-! ## Blanks and strings -/

def skipBlanks (cs : List Char) : List Char :=
  cs.dropWhile fun c => c = ' ' || c = '\t' || c = '\n' || c = '\r'

def hexValue? (c : Char) : Option Nat :=
  if '0' ≤ c && c ≤ '9' then some (c.toNat - '0'.toNat)
  else if 'a' ≤ c && c ≤ 'f' then some (c.toNat - 'a'.toNat + 10)
  else if 'A' ≤ c && c ≤ 'F' then some (c.toNat - 'A'.toNat + 10)
  else none

/-- The UTF-16 unit that four hexadecimal digits stand for. -/
def unit? (a b c d : Char) : Option Nat := do
  return (((← hexValue? a) * 16 + (← hexValue? b)) * 16 + (← hexValue? c)) * 16 + (← hexValue? d)

/-- Whether a unit is the first half of a pair. -/
def isHigh (u : Nat) : Bool := 0xD800 ≤ u && u < 0xDC00

/-- Whether a unit is the second half of a pair. -/
def isLow (u : Nat) : Bool := 0xDC00 ≤ u && u < 0xE000

/-- The character that a pair of units stands for. -/
def joined (high low : Nat) : Char :=
  Char.ofNat (0x10000 + (high - 0xD800) * 0x400 + (low - 0xDC00))

/-- The character of an escape of two characters. -/
def escape? : Char → Option Char
  | '"' => some '"'
  | '\\' => some '\\'
  | '/' => some '/'
  | 'b' => some '\x08'
  | 'f' => some '\x0c'
  | 'n' => some '\n'
  | 'r' => some '\r'
  | 't' => some '\t'
  | _ => none

/-- What a string holds, with a character in front.  Behind half of a pair it is no text. -/
def before (half : Option Nat) (c : Char) (x : Reads (Option (List Char) × List Char)) :
    Reads (Option (List Char) × List Char) := do
  let (text, rest) ← x
  return (if half.isSome then none else text.map (c :: ·), rest)

/-- What a string holds where it is known to be no text. -/
def spoiled (x : Reads (Option (List Char) × List Char)) :
    Reads (Option (List Char) × List Char) := do
  let (_, rest) ← x
  return (none, rest)

/-- Reads the rest of a string up to its closing quote; `half` is the first half of a surrogate pair
that stands right before. -/
def stringTail : Option Nat → List Char → Reads (Option (List Char) × List Char)
  | _, [] => .error .malformed
  | half, '"' :: rest => .ok (if half.isSome then none else some [], rest)
  | half, '\\' :: 'u' :: a :: b :: c :: d :: rest =>
    match unit? a b c d with
    | none => .error .malformed
    | some unit =>
      if isHigh unit then
        if half.isSome then spoiled (stringTail (some unit) rest) else stringTail (some unit) rest
      else if isLow unit then
        match half with
        | some high => before none (joined high unit) (stringTail none rest)
        | none => spoiled (stringTail none rest)
      else before half (Char.ofNat unit) (stringTail none rest)
  | half, '\\' :: c :: rest =>
    match escape? c with
    | none => .error .malformed
    | some c => before half c (stringTail none rest)
  | half, c :: rest =>
    if c.toNat < 0x20 || c = '\\' then .error .malformed
    else before half c (stringTail none rest)

/-! ## Numbers -/

def digitsOf (cs : List Char) : List Char := cs.takeWhile Char.isDigit

def skipFraction? : List Char → Option (List Char)
  | '.' :: rest => if (digitsOf rest).isEmpty then none else some (rest.dropWhile Char.isDigit)
  | _ => none

def skipExponent? : List Char → Option (List Char)
  | e :: rest =>
    if e = 'e' || e = 'E' then
      let digits := match rest with
        | '+' :: rest | '-' :: rest => rest
        | _ => rest
      if (digitsOf digits).isEmpty then none else some (digits.dropWhile Char.isDigit)
    else none
  | [] => none

def unsigned (cs : List Char) : Reads (Document × List Char) :=
  let whole := match digitsOf cs with
    | '0' :: _ => ['0']
    | digits => digits
  let rest := cs.drop whole.length
  if whole.isEmpty then .error .malformed
  else
    match skipFraction? rest, skipExponent? ((skipFraction? rest).getD rest) with
    | none, none =>
      if Text.digitLimit < whole.length then .error (.tooManyDigits whole.length)
      else .ok (.number, rest)
    | some rest, none => .ok (.number, rest)
    | _, some rest => .ok (.number, rest)

def word (spelling : String) (value : Document) (cs : List Char) : Reads (Document × List Char) :=
  if spelling.toList.isPrefixOf cs then .ok (value, cs.drop spelling.toList.length)
  else .error .malformed

def scalar (cs : List Char) : Reads (Document × List Char) :=
  match cs with
  | 'n' :: _ => word "null" .null cs
  | 't' :: _ => word "true" (.boolean true) cs
  | 'f' :: _ => word "false" (.boolean false) cs
  | 'N' :: _ => word "NaN" .number cs
  | 'I' :: _ => word "Infinity" .number cs
  | '-' :: 'I' :: _ => word "-Infinity" .number cs
  | '-' :: rest => unsigned rest
  | _ => unsigned cs

/-! ## Documents -/

/-- Reads the name of a field and the colon behind it. -/
def fieldName (cs : List Char) : Reads (Option String × List Char) :=
  match cs with
  | '"' :: rest => do
    let (name, rest) ← stringTail none rest
    match skipBlanks rest with
    | ':' :: rest => return (name.map String.ofList, rest)
    | _ => .error .malformed
  | _ => .error .malformed

mutual

/-- Reads a value behind blanks.  No more steps are taken than `fuel`. -/
def value : Nat → List Char → Reads (Document × List Char)
  | 0, _ => .error .malformed
  | fuel + 1, cs =>
    match skipBlanks cs with
    | '"' :: rest => do
      let (content, rest) ← stringTail none rest
      return (.string (content.map String.ofList), rest)
    | '[' :: rest =>
      match skipBlanks rest with
      | ']' :: rest => .ok (.array [], rest)
      | rest => do
        let (items, rest) ← elements fuel rest
        return (.array items, rest)
    | '\x7b' :: rest =>
      match skipBlanks rest with
      | '\x7d' :: rest => .ok (.object [], rest)
      | rest => do
        let (fields, rest) ← members fuel [] rest
        return (.object fields, rest)
    | rest => scalar rest

/-- Reads the elements of an array and its closing bracket. -/
def elements : Nat → List Char → Reads (List Document × List Char)
  | 0, _ => .error .malformed
  | fuel + 1, cs => do
    let (item, rest) ← value fuel cs
    match skipBlanks rest with
    | ']' :: rest => return ([item], rest)
    | ',' :: rest =>
      let (items, rest) ← elements fuel rest
      return (item :: items, rest)
    | _ => .error .malformed

/-- Reads the fields of an object and its closing brace, after the fields already read. -/
def members : Nat → List (Option String × Document) → List Char →
    Reads (List (Option String × Document) × List Char)
  | 0, _, _ => .error .malformed
  | fuel + 1, fields, cs => do
    let (name, rest) ← fieldName (skipBlanks cs)
    let (v, rest) ← value fuel rest
    let fields := setField fields name v
    match skipBlanks rest with
    | '\x7d' :: rest => return (fields, rest)
    | ',' :: rest => members fuel fields rest
    | _ => .error .malformed

end

/-- Reads a text as one document.  Two steps for each character are enough. -/
def ofText (text : List Char) : Except Refusal Document := do
  let (document, rest) ← value (2 * text.length + 2) text
  if (skipBlanks rest).isEmpty then return document else .error .malformed

end Document

end ModelScript
