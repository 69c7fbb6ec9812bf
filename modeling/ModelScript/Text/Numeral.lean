import ModelScript.Text.DecimalDigit

/-!
# Whole numbers in words

Reads a word as a whole number: digits of any script with single underscores between them, behind
at most one sign, and blanks around all of it.
-/

namespace ModelScript.Text

/-- The blanks that may surround a number. -/
def isBlank (c : Char) : Bool :=
  ('\t' ≤ c && c ≤ '\r') || c = ' ' || c.toNat = 0x85 || c.toNat = 0xA0 || c.toNat = 0x1680
    || (0x2000 ≤ c.toNat && c.toNat ≤ 0x200A) || c.toNat = 0x2028 || c.toNat = 0x2029
    || c.toNat = 0x202F || c.toNat = 0x205F || c.toNat = 0x3000

def trimBlanks (cs : List Char) : List Char :=
  ((cs.dropWhile isBlank).reverse.dropWhile isBlank).reverse

/-- The values of digits with single underscores between them. -/
def digits? : List Char → Option (List Nat)
  | [] => none
  | [c] => (digitValue? c).map ([·])
  | c :: '_' :: rest => do return (← digitValue? c) :: (← digits? rest)
  | c :: rest => do return (← digitValue? c) :: (← digits? rest)

/-- The number with the given decimal digits, the first of which counts most. -/
def ofDecimalDigits (ds : List Nat) : Nat := ds.foldl (fun n d => n * 10 + d) 0

/-- The most digits that a number may have. -/
def digitLimit : Nat := 4300

/-- Reads digits as a number, if they are not too many. -/
def natural? (cs : List Char) : Option Nat := do
  let ds ← digits? cs
  if ds.length ≤ digitLimit then return ofDecimalDigits ds else none

def integer? (word : String) : Option Int :=
  match trimBlanks word.toList with
  | '-' :: rest => (natural? rest).map fun n => -(n : Int)
  | '+' :: rest => (natural? rest).map (↑·)
  | rest => (natural? rest).map (↑·)

end ModelScript.Text
