/-!
# Code point ranges

A set of characters given as a list of closed ranges of code points in ascending order, the form in
which the character tables beside this module are written.  `covers` looks a code point up and
stops at the first range that begins beyond it.
-/

namespace ModelScript.Text

/-- Closed ranges of code points, in ascending order. -/
abbrev Ranges := List (Nat × Nat)

namespace Ranges

def covers : Ranges → Nat → Bool
  | [], _ => false
  | (first, last) :: rest, n => first ≤ n && (n ≤ last || covers rest n)

/-- The first code point of the range that holds `n`. -/
def start? : Ranges → Nat → Option Nat
  | [], _ => none
  | (first, last) :: rest, n => if first ≤ n && n ≤ last then some first else start? rest n

end Ranges

end ModelScript.Text
