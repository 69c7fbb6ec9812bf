import ModelScript.Text.Surrogate

/-!
# Paths

Paths of names between slashes.  Repeated slashes and parts that are a single dot vanish when a
path is read, while `..` stays.  A path is anchored by the slashes it begins with, of which exactly
two are kept as two and any other number counts as one.
-/

namespace ModelScript

/-- A path: the number of slashes it begins with, and its parts. -/
structure Path where
  slashes : Nat
  parts : List String
  deriving DecidableEq, Repr

/-- Why a path cannot be used. -/
inductive PathError where
  /-- A name cannot end in this. -/
  | badSuffix (suffix : String)
  /-- There is no name to replace the ending of. -/
  | noName
  /-- The text of the path cannot be written as bytes. -/
  | unencodable (fault : Text.Unencodable)
  deriving DecidableEq, Repr

def PathError.message : PathError → String
  | badSuffix suffix => s!"Invalid suffix {Text.quoted suffix}"
  | noName => "PosixPath('.') has an empty name"
  | unencodable fault => fault.message

/-- A path whose text cannot be written as bytes, so that nothing is found under it. -/
structure UnencodablePath where
  text : List Text.CodePoint
  fault : Text.Unencodable
  fault_eq : Text.unencodable? 0 text = some fault
  deriving DecidableEq, Repr

namespace Path

/-! ## Reading and writing -/

/-- The pieces of a text between slashes. -/
def segments : List Char → List (List Char)
  | [] => [[]]
  | '/' :: rest => [] :: segments rest
  | c :: rest =>
    match segments rest with
    | [] => [[c]]
    | s :: ss => (c :: s) :: ss

def ofString (text : String) : Path :=
  let leading := (text.toList.takeWhile (· = '/')).length
  {
    slashes := if leading = 0 then 0 else if leading = 2 then 2 else 1
    parts := (segments text.toList).filterMap fun s =>
      if s = [] || s = ['.'] then none else some (String.ofList s) }

/-- Writes a path; the empty one is a dot. -/
def toString (p : Path) : String :=
  if p.slashes = 0 && p.parts.isEmpty then "."
  else String.ofList (List.replicate p.slashes '/') ++ "/".intercalate p.parts

/-! ## Parts of a path -/

/-- The last part, empty if there is none. -/
def name (p : Path) : String := p.parts.getLast?.getD ""

def parent (p : Path) : Path := { p with parts := p.parts.dropLast }

/-- A path seen from another; an anchored one stands for itself. -/
def join (p q : Path) : Path :=
  if q.slashes = 0 then { p with parts := p.parts ++ q.parts } else q

/-- The path of an entry of a directory. -/
def child (p : Path) (name : String) : Path := { p with parts := p.parts ++ [name] }

/-- The rest of a path behind a base, if it begins with all of the base's parts. -/
def relativeTo? (p base : Path) : Option Path :=
  if p.slashes = base.slashes && base.parts.isPrefixOf p.parts then
    some ⟨0, p.parts.drop base.parts.length⟩
  else none

/-! ## Suffixes -/

/-- A name without its suffix.  The suffix starts at the last dot, unless that is the first or the
last character of the name. -/
def stem (name : List Char) : List Char :=
  let afterDot := (name.reverse.takeWhile (· ≠ '.')).length
  let beforeDot := name.length - afterDot - 1
  if afterDot = name.length || afterDot = 0 || beforeDot = 0 then name else name.take beforeDot

/-- The path with another suffix in its name; the suffix is given with its dot. -/
def withSuffix (p : Path) (suffix : String) : Except PathError Path :=
  if suffix.toList.contains '/' || suffix = "." then .error (.badSuffix suffix)
  else if p.name = "" then .error .noName
  else .ok (p.parent.child (String.ofList (stem p.name.toList ++ suffix.toList)))

/-! ## Lemmas -/

theorem parent_child (p : Path) (name : String) : (p.child name).parent = p := by
  unfold parent child
  rw [List.dropLast_concat]

theorem name_child (p : Path) (name : String) : (p.child name).name = name := by
  unfold Path.name child
  rw [List.getLast?_concat, Option.getD_some]

theorem relativeTo?_join (p q : Path) (h : q.slashes = 0) : (p.join q).relativeTo? p = some q := by
  obtain ⟨slashes, parts⟩ := q
  cases h
  simp [join, relativeTo?]

end Path

end ModelScript
