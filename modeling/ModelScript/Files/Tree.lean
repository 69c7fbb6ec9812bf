import ModelScript.Files.Path
import ModelScript.Text.LineBreak
import ModelScript.Text.Utf8

/-!
# File trees

Files and directories, and what reading and writing them comes to.  An entry is found by its names
from the root on.  A path is followed part by part, from the working directory unless it is
anchored, and `..` leads one directory up; above the root there is nothing else.
-/

namespace ModelScript

/-- What stands under a name. -/
inductive Entry where
  | file (bytes : List UInt8)
  | directory
  deriving DecidableEq, Repr

/-- Entries with their names from the root on.  The first entry for a list of names counts, and
every directory on the way to an entry has an entry of its own. -/
structure FileTree where
  /-- The names of the working directory. -/
  here : List String
  entries : List (List String × Entry)
  deriving Repr

/-! ## Errors -/

/-- What the file system refuses. -/
inductive FileProblem where
  | notFound
  | exists
  | notDirectory
  | isDirectory
  deriving DecidableEq, Repr

/-- A refusal, with the path as it was asked for. -/
structure FileError where
  problem : FileProblem
  path : String
  deriving DecidableEq, Repr

def FileProblem.number : FileProblem → Nat
  | notFound => 2
  | «exists» => 17
  | notDirectory => 20
  | isDirectory => 21

def FileProblem.message : FileProblem → String
  | notFound => "No such file or directory"
  | «exists» => "File exists"
  | notDirectory => "Not a directory"
  | isDirectory => "Is a directory"

def FileError.message (e : FileError) : String :=
  s!"[Errno {e.problem.number}] {e.problem.message}: {Text.quoted e.path}"

/-- Why a file gives no text. -/
inductive ReadError where
  | refused (error : FileError)
  | undecodable (fault : Text.Utf8.Fault)
  /-- The path has a character of code zero. -/
  | nullByte
  deriving DecidableEq, Repr

namespace FileTree

/-! ## Entries -/

def get? (t : FileTree) (names : List String) : Option Entry :=
  if names.isEmpty then some .directory else t.entries.lookup names

/-- The tree with an entry under some names, in place of one that was there. -/
def insert (t : FileTree) (names : List String) (entry : Entry) : FileTree :=
  { t with entries := (names, entry) :: t.entries.filter (·.1 ≠ names) }

/-- The tree with a directory under some names, unless there is an entry. -/
def insertDirectory (t : FileTree) (names : List String) : FileTree :=
  if (t.get? names).isNone then t.insert names .directory else t

/-- The lists of names that lead to some names, which end with those themselves. -/
def wayTo (names : List String) : List (List String) :=
  (List.range names.length).map fun n => names.take (n + 1)

/-- The tree with an entry and the directories on the way to it. -/
def add (t : FileTree) (names : List String) (entry : Entry) : FileTree :=
  let t := (wayTo names.dropLast).foldl insertDirectory t
  if names.isEmpty then t else t.insert names entry

/-- The tree with nothing but its working directory. -/
def bare (here : List String) : FileTree := (wayTo here).foldl insertDirectory ⟨here, []⟩

/-- The files of `after` that are not in `before` with the same bytes. -/
def changed (before after : FileTree) : List (List String × List UInt8) :=
  after.entries.filterMap fun (names, entry) =>
    match entry with
    | .file bytes => if before.get? names = some entry then none else some (names, bytes)
    | .directory => none

/-! ## Following a path -/

/-- The names that the parts of a path lead to from a directory.  Every part but the last has to be
passed through as a directory. -/
def follow (t : FileTree) : List String → List String → Except FileProblem (List String)
  | names, [] => .ok names
  | names, part :: rest =>
    match t.get? names with
    | none => .error .notFound
    | some (.file _) => .error .notDirectory
    | some .directory => follow t (if part = ".." then names.dropLast else names ++ [part]) rest

/-- The names that a path leads to, whether or not there is an entry. -/
def locate (t : FileTree) (p : Path) : Except FileProblem (List String) :=
  t.follow (if p.slashes = 0 then t.here else []) p.parts

def entry (t : FileTree) (p : Path) : Except FileProblem Entry := do
  match t.get? (← t.locate p) with
  | some e => return e
  | none => .error .notFound

def isDirectory (t : FileTree) (p : Path) : Bool :=
  match t.entry p with
  | .ok .directory => true
  | _ => false

/-! ## Reading -/

/-- The bytes of a file.  Messages name the path as `shown`. -/
def readBytes (t : FileTree) (p : Path) (shown : String) : Except ReadError (List UInt8) :=
  if shown.toList.contains '\x00' then .error .nullByte
  else
    match t.entry p with
    | .ok (.file bytes) => .ok bytes
    | .ok .directory => .error (.refused ⟨.isDirectory, shown⟩)
    | .error problem => .error (.refused ⟨problem, shown⟩)

/-- The text of a file, with unified line breaks.  Messages name the path as `shown`. -/
def readText (t : FileTree) (p : Path) (shown : String) : Except ReadError (List Char) := do
  let bytes ← t.readBytes p shown
  match Text.Utf8.decode bytes with
  | .ok text => return Text.unifyLineBreaks text
  | .error fault => .error (.undecodable fault)

/-- The order of lists of names: the first names that differ decide, and a list comes in front of
those that go on behind it. -/
def inOrder : List String → List String → Bool
  | [], _ => true
  | _ :: _, [] => false
  | a :: as, b :: bs => if a = b then inOrder as bs else a ≤ b

/-- The order of paths by their parts. -/
def before (p q : Path) : Bool := inOrder p.parts q.parts

/-- The paths of all entries below a directory whose names end in `ending`, ordered by their
parts. -/
def entriesBelow (t : FileTree) (p : Path) (ending : String) : List Path :=
  match t.locate p, t.isDirectory p with
  | .ok base, true =>
    let below := t.entries.filterMap fun (names, _) =>
      if base.isPrefixOf names && base.length < names.length
          && ending.toList.isSuffixOf (names.getLast?.getD "").toList then
        some { p with parts := p.parts ++ names.drop base.length }
      else none
    below.mergeSort before
  | _, _ => []

/-! ## Writing -/

/-- Where an entry could be made under a path: the names it would have, in an existing directory. -/
def vacancy (t : FileTree) (p : Path) : Except FileProblem (List String) := do
  let names ← t.locate p
  match t.get? names with
  | some _ => .error .exists
  | none => return names

def makeDirectory (t : FileTree) (p : Path) : Except FileError FileTree :=
  match t.vacancy p with
  | .ok names => .ok (t.insert names .directory)
  | .error problem => .error ⟨problem, p.toString⟩

/-- A directory that could not be made is as good as made if it is there. -/
def orExisting (t : FileTree) (p : Path) : Except FileError FileTree → Except FileError FileTree
  | .ok t' => .ok t'
  | .error e => if e.problem ≠ .notFound && t.isDirectory p then .ok t else .error e

/-- Makes a directory, given by its parts from the last to the first, and those on the way to it. -/
def makeDirectoriesFrom (slashes : Nat) (t : FileTree) : List String → Except FileError FileTree
  | [] => t.orExisting ⟨slashes, []⟩ (t.makeDirectory ⟨slashes, []⟩)
  | part :: up =>
    let p : Path := ⟨slashes, (part :: up).reverse⟩
    match t.makeDirectory p with
    | .error ⟨.notFound, _⟩ => do
      let t ← makeDirectoriesFrom slashes t up
      t.orExisting p (t.makeDirectory p)
    | made => t.orExisting p made

/-- Makes a directory and those on the way to it, as far as they are missing. -/
def makeDirectories (t : FileTree) (p : Path) : Except FileError FileTree :=
  makeDirectoriesFrom p.slashes t p.parts.reverse

/-- Writes a file in an existing directory, in place of one that was there. -/
def writeFile (t : FileTree) (p : Path) (bytes : List UInt8) : Except FileError FileTree := do
  let refuse (problem : FileProblem) : Except FileError FileTree := .error ⟨problem, p.toString⟩
  match t.locate p with
  | .error problem => refuse problem
  | .ok names =>
    match t.get? names with
    | some .directory => refuse .isDirectory
    | _ => return t.insert names (.file bytes)

/-! ## Lemmas -/

theorem get?_insert_self (t : FileTree) {names : List String} (entry : Entry)
    (h : names ≠ []) : (t.insert names entry).get? names = some entry := by
  cases names with
  | nil => exact absurd rfl h
  | cons name rest => simp [get?, insert]

theorem get?_insert_of_ne (t : FileTree) {names others : List String} (entry : Entry)
    (h : others ≠ names) : (t.insert names entry).get? others = t.get? others := by
  have key : ∀ entries : List (List String × Entry),
      (entries.filter (·.1 ≠ names)).lookup others = entries.lookup others := by
    intro entries
    induction entries with
    | nil => rfl
    | cons e rest ih =>
      by_cases he : e.1 = names
      · have hne : (others == e.1) = false := by rw [he]; exact beq_eq_false_iff_ne.2 h
        rw [List.filter_cons_of_neg (by simp [he]), ih, List.lookup_cons, hne]
      · rw [List.filter_cons_of_pos (by simp [he]), List.lookup_cons, List.lookup_cons, ih]
  have hne : (others == names) = false := beq_eq_false_iff_ne.2 h
  unfold get? insert
  rw [List.lookup_cons, hne]
  show (if others.isEmpty = true then _ else _) = _
  rw [key]

end FileTree

end ModelScript
