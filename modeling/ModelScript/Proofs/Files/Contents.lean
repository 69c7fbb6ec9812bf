import ModelScript.Proofs.Files.Writing

/-!
# Contents of files

The contents of files before and after texts are written.  Making directories changes none of them,
and a text changes that of the file its path leads to:

    files'.content? names = if p.place files.here = names then text else files.content? names

(`content?_writeText`).  So when texts have been written one after the other, a file has the last
one that went there, or what it had before (`content?_writeAll`).
-/

namespace ModelScript

/-! ## Places -/

/-- The names that the parts of a path lead to from a directory, whatever stands there. -/
def Path.placeFrom (names : List String) : List String → List String
  | [] => names
  | part :: rest => placeFrom (if part = ".." then names.dropLast else names ++ [part]) rest

/-- The names that a path leads to, seen from the working directory, whatever stands there. -/
def Path.place (here : List String) (p : Path) : List String :=
  placeFrom (if p.slashes = 0 then here else []) p.parts

namespace FileTree

variable {t t' : FileTree} {p : Path} {names : List String}

/-- A path that can be followed leads to its place. -/
theorem follow_eq_ok {base parts : List String} (h : t.follow base parts = .ok names) :
    Path.placeFrom base parts = names := by
  induction parts generalizing base with
  | nil => exact Except.ok.inj h
  | cons part rest ih =>
    rw [follow] at h
    split at h
    · cases h
    · cases h
    · exact ih h

theorem locate_eq_ok (h : t.locate p = .ok names) : p.place t.here = names := follow_eq_ok h

/-! ## Contents -/

def content? (t : FileTree) (names : List String) : Option (List UInt8) :=
  match t.get? names with
  | some (.file bytes) => some bytes
  | _ => none

theorem content?_insert_directory (h : t.get? names = none) (others : List String) :
    (t.insert names .directory).content? others = t.content? others := by
  unfold content?
  by_cases hsame : others = names
  · subst hsame
    rw [h]
    by_cases hroot : others = []
    · subst hroot
      rfl
    · rw [get?_insert_self t _ hroot]
  · rw [get?_insert_of_ne t _ hsame]

theorem content?_insert_file (bytes : List UInt8) (h : t.get? names ≠ some .directory)
    (others : List String) : (t.insert names (.file bytes)).content? others
      = if names = others then some bytes else t.content? others := by
  have hne : names ≠ [] := by
    rintro rfl
    exact h rfl
  unfold content?
  by_cases hsame : names = others
  · subst hsame
    rw [get?_insert_self t _ hne, if_pos rfl]
  · rw [get?_insert_of_ne t _ (Ne.symm hsame), if_neg hsame]

theorem content?_makeDirectories (h : t.makeDirectories p = .ok t') :
    t'.here = t.here ∧ ∀ names, t'.content? names = t.content? names := by
  refine makeDirectoriesFrom_induction
    (motive := fun u => u.here = t.here ∧ ∀ names, u.content? names = t.content? names)
    (fun t₁ t₂ q _ hmade ht => ?_) h ⟨rfl, fun _ => rfl⟩
  obtain ⟨names, -, hvacant, rfl⟩ := makeDirectory_eq_ok hmade
  exact ⟨ht.1, fun others => (content?_insert_directory hvacant others).trans (ht.2 others)⟩

end FileTree

/-! ## Writing texts -/

variable [TemplateEngine] {files files' : FileTree} {p : Path} {text : String}

/-- A text that is written is the content of the file in the place of its path, and the contents of
all other files are what they were. -/
theorem content?_writeText (h : writeText files p text = .ok files') :
    files'.here = files.here ∧ ∀ names, files'.content? names
      = if p.place files.here = names then some (Text.Utf8.encode text)
        else files.content? names := by
  obtain ⟨-, made, hmade, hwritten⟩ := writeText_eq_ok h
  obtain ⟨hhere, hcontent⟩ := FileTree.content?_makeDirectories hmade
  obtain ⟨names, hl, hg, rfl⟩ := FileTree.writeFile_eq_ok hwritten
  refine ⟨hhere, fun others => ?_⟩
  rw [FileTree.content?_insert_file _ hg, ← FileTree.locate_eq_ok hl, hhere, hcontent]

theorem locate_writeAll {names : List String} {texts : List (Path × String)}
    (h : writeAll files texts = .ok files') (hl : files.locate p = .ok names) :
    files'.locate p = .ok names := by
  induction texts generalizing files with
  | nil =>
    cases h
    exact hl
  | cons q rest ih =>
    obtain ⟨next, hnext, hrest⟩ := writeAll_cons_eq_ok h
    obtain ⟨written, -, -, hspares⟩ := writeText_spec hnext
    exact ih hrest (hspares.locate hl)

/-- When texts have been written, a file has the last of those that went to it, or nothing has gone
there and it is what it was. -/
theorem content?_writeAll {texts : List (Path × String)} (h : writeAll files texts = .ok files')
    (names : List String) :
    (∃ before p text after, texts = before ++ (p, text) :: after ∧ files'.locate p = .ok names ∧
        p.place files.here = names ∧ (∀ q ∈ after, q.1.place files.here ≠ names) ∧
        files'.content? names = some (Text.Utf8.encode text)) ∨
      (∀ q ∈ texts, q.1.place files.here ≠ names) ∧
        files'.content? names = files.content? names := by
  induction texts generalizing files with
  | nil =>
    cases h
    exact Or.inr ⟨fun q hq => (nomatch hq), rfl⟩
  | cons first rest ih =>
    obtain ⟨p, text⟩ := first
    obtain ⟨next, hnext, hrest⟩ := writeAll_cons_eq_ok h
    obtain ⟨hhere, hcontent⟩ := content?_writeText hnext
    obtain ⟨before, q, last, after, rfl, hl, hq, hafter, hlast⟩ | ⟨hothers, hkept⟩ := ih hrest
    · rw [hhere] at hq hafter
      exact Or.inl ⟨(p, text) :: before, q, last, after, rfl, hl, hq, hafter, hlast⟩
    · rw [hhere] at hothers
      rw [hcontent] at hkept
      by_cases hp : p.place files.here = names
      · obtain ⟨written, hl, -, -⟩ := writeText_spec hnext
        obtain rfl : written = names := by
          rw [← FileTree.locate_eq_ok hl, hhere, hp]
        rw [if_pos hp] at hkept
        exact Or.inl ⟨[], p, text, rest, rfl, locate_writeAll hrest hl, hp, hothers, hkept⟩
      · rw [if_neg hp] at hkept
        exact Or.inr ⟨List.forall_mem_cons.mpr ⟨hp, hothers⟩, hkept⟩

end ModelScript
