/-!
# Character streams

A source text read from a place in it.  A place counts the characters read and the line and column
that come next; `Place.past` moves it past a text.  `Stream.advance` reads a number of characters,
or fails and changes nothing when fewer are left.
-/

namespace ModelScript

/-- Where reading stands: the offset, and the line and column counted from one. -/
structure Place where
  position : Nat
  line : Nat
  column : Nat
  deriving DecidableEq, Repr

namespace Place

def after (p : Place) (c : Char) : Place :=
  if c = '\n' then ⟨p.position + 1, p.line + 1, 1⟩ else ⟨p.position + 1, p.line, p.column + 1⟩

def past (p : Place) (text : List Char) : Place := text.foldl after p

theorem past_append (p : Place) (as bs : List Char) : p.past (as ++ bs) = (p.past as).past bs :=
  List.foldl_append

theorem position_past (p : Place) (text : List Char) :
    (p.past text).position = p.position + text.length := by
  induction text generalizing p with
  | nil => rfl
  | cons c rest ih =>
    have h : (p.after c).position = p.position + 1 := by unfold after; split <;> rfl
    rw [past, List.foldl_cons, ← past, ih, h, List.length_cons]
    omega

theorem line_past (p : Place) (text : List Char) :
    (p.past text).line = p.line + text.count '\n' := by
  induction text generalizing p with
  | nil => rfl
  | cons c rest ih =>
    rw [past, List.foldl_cons, ← past, ih]
    by_cases h : c = '\n'
    · rw [h, List.count_cons_self, after, if_pos rfl]
      show p.line + 1 + _ = _
      omega
    · rw [List.count_cons_of_ne h, after, if_neg h]

end Place

/-- A source text and the place up to which it is read. -/
structure Stream where
  source : List Char
  place : Place
  deriving DecidableEq, Repr

namespace Stream

/-- The characters still to be read. -/
def rest (s : Stream) : List Char := s.source.drop s.place.position

/-- An attempt to read past the end, made at a place. -/
structure Overrun where
  place : Place
  deriving DecidableEq, Repr

def Overrun.message (o : Overrun) : String :=
  "CharacterStreamError: Attempted to read past end of source at "
    ++ s!"position=<{o.place.position}>, line=<{o.place.line}>"

/-- Reads `count` characters. -/
def advance (s : Stream) (count : Nat) : Except Overrun (List Char × Stream) :=
  if s.source.length < s.place.position + count then .error ⟨s.place⟩
  else
    let text := s.rest.take count
    .ok (text, { s with place := s.place.past text })

/-- The character `offset` places from the current one. -/
def peek? (s : Stream) (offset : Int) : Option Char :=
  let index := (s.place.position : Int) + offset
  if index < 0 then none else s.source[index.toNat]?

def atEnd (s : Stream) : Bool := s.source.length ≤ s.place.position

end Stream

end ModelScript
