import Mathlib.Data.List.Infix
import ModelScript.Build.Report

/-!
# What writing leaves behind

A text is written in a directory, which is made first with those on the way to it.  `Spares` says
what the other entries have to do with it: nothing, except that a file may be written over.

* `spares_makeDirectories`, `writeFile_spec`: making directories keeps all entries, and writing a
  file keeps all but that file.
* `writeText_spec`: where a text was written it stands, and every directory and every other file is
  as it was.
* `writeAll_holds`: when some texts have been written one after the other, the place of each holds
  it, or a later one that went to the same place.
-/

namespace ModelScript

namespace FileTree

variable {t t' t'' : FileTree} {p : Path}

/-! ## Trees that keep their entries -/

/-- Whether a tree has all directories of another, and all of its files but perhaps one. -/
structure Spares (written : Option (List String)) (t t' : FileTree) : Prop where
  here_eq : t'.here = t.here
  directory : ∀ names, t.get? names = some .directory → t'.get? names = some .directory
  file : ∀ names bytes, some names ≠ written → t.get? names = some (.file bytes) →
    t'.get? names = some (.file bytes)

theorem Spares.refl (t : FileTree) : Spares none t t := ⟨rfl, fun _ => id, fun _ _ _ => id⟩

/-- What one step keeps and what the next one keeps is kept by both. -/
theorem Spares.trans {written : Option (List String)} (h : Spares none t t')
    (h' : Spares written t' t'') : Spares written t t'' where
  here_eq := h'.here_eq.trans h.here_eq
  directory names hd := h'.directory names (h.directory names hd)
  file names bytes hne hf := h'.file names bytes hne (h.file names bytes (by simp) hf)

/-- A path leads through the same directories to the same names. -/
theorem Spares.follow {written : Option (List String)} (h : Spares written t t')
    (base parts : List String) {names : List String} (hf : t.follow base parts = .ok names) :
    t'.follow base parts = .ok names := by
  induction parts generalizing base with
  | nil => exact hf
  | cons part rest ih =>
    rw [FileTree.follow] at hf ⊢
    cases hbase : t.get? base with
    | none =>
      rw [hbase] at hf
      cases hf
    | some entry =>
      rw [hbase] at hf
      cases entry with
      | file bytes => cases hf
      | directory =>
        rw [h.directory base hbase]
        exact ih _ hf

theorem Spares.locate {written : Option (List String)} (h : Spares written t t')
    {names : List String} (hl : t.locate p = .ok names) : t'.locate p = .ok names := by
  unfold FileTree.locate at hl ⊢
  rw [h.here_eq]
  exact h.follow _ _ hl

theorem spares_insert {names : List String} (entry : Entry) (h : t.get? names = none) :
    Spares none t (t.insert names entry) := by
  have hkept (others : List String) (e : Entry) (he : t.get? others = some e) :
      (t.insert names entry).get? others = some e := by
    have hne : others ≠ names := by
      rintro rfl
      rw [h] at he
      cases he
    rw [get?_insert_of_ne t entry hne, he]
  exact ⟨rfl, fun others => hkept others _, fun others _ _ => hkept others _⟩

theorem spares_insert_file {names : List String} (bytes : List UInt8)
    (h : t.get? names ≠ some .directory) :
    Spares (some names) t (t.insert names (.file bytes)) where
  here_eq := rfl
  directory others hd := by
    have hne : others ≠ names := fun heq => h (heq ▸ hd)
    rw [get?_insert_of_ne t _ hne, hd]
  file others _ hne hf := by
    rw [get?_insert_of_ne t _ (fun heq => hne (congrArg some heq)), hf]

/-! ## Making directories -/

theorem makeDirectory_eq_ok (h : t.makeDirectory p = .ok t') :
    ∃ names, t.locate p = .ok names ∧ t.get? names = none ∧ t' = t.insert names .directory := by
  unfold makeDirectory vacancy at h
  cases hl : t.locate p with
  | error problem =>
    rw [hl] at h
    cases h
  | ok names =>
    rw [hl] at h
    cases hg : t.get? names with
    | some entry => simp [hg, bind, Except.bind] at h
    | none =>
      simp [hg, bind, Except.bind, pure, Except.pure] at h
      exact ⟨names, rfl, hg, h.symm⟩

theorem orExisting_eq_ok {made : Except FileError FileTree} (h : t.orExisting p made = .ok t') :
    made = .ok t' ∨ t' = t := by
  cases made with
  | ok made => exact Or.inl h
  | error e =>
    unfold orExisting at h
    dsimp only at h
    split at h
    · exact Or.inr (Except.ok.inj h).symm
    · cases h

/-- What holds of a tree still holds when directories have been made, if each of them keeps it. -/
theorem makeDirectoriesFrom_induction {motive : FileTree → Prop} {slashes : Nat}
    {parts : List String}
    (step : ∀ t t' q, q.parts ⊆ parts → t.makeDirectory q = .ok t' → motive t → motive t')
    (h : makeDirectoriesFrom slashes t parts = .ok t') (ht : motive t) : motive t' := by
  induction parts generalizing t t' with
  | nil =>
    rw [makeDirectoriesFrom] at h
    obtain hmade | rfl := orExisting_eq_ok h
    · exact step t t' _ (List.Subset.refl _) hmade ht
    · exact ht
  | cons part up ih =>
    have hstep (t t' : FileTree)
        (hmade : t.makeDirectory ⟨slashes, (part :: up).reverse⟩ = .ok t') (ht : motive t) :
        motive t' := step t t' _ (List.reverse_subset.mpr (List.Subset.refl _)) hmade ht
    rw [makeDirectoriesFrom] at h
    split at h
    · -- the directory in front is missing too, so those on the way are made first
      cases hup : makeDirectoriesFrom slashes t up with
      | error e =>
        rw [hup] at h
        cases h
      | ok above =>
        rw [hup] at h
        have habove : motive above :=
          ih (fun t t' q hq => step t t' q (List.subset_cons_of_subset part hq)) hup ht
        obtain hmade | rfl := orExisting_eq_ok h
        · exact hstep above t' hmade habove
        · exact habove
    · obtain hmade | rfl := orExisting_eq_ok h
      · exact hstep t t' hmade ht
      · exact ht

theorem spares_makeDirectories (h : t.makeDirectories p = .ok t') : Spares none t t' := by
  refine makeDirectoriesFrom_induction (motive := Spares none t) (fun t₁ t₂ q _ hmade ht => ?_) h
    (.refl t)
  obtain ⟨names, -, hvacant, rfl⟩ := makeDirectory_eq_ok hmade
  exact ht.trans (spares_insert _ hvacant)

/-! ## Writing a file -/

theorem writeFile_eq_ok {bytes : List UInt8} (h : t.writeFile p bytes = .ok t') :
    ∃ names, t.locate p = .ok names ∧ t.get? names ≠ some .directory ∧
      t' = t.insert names (.file bytes) := by
  unfold writeFile at h
  dsimp only at h
  cases hl : t.locate p with
  | error problem =>
    rw [hl] at h
    cases h
  | ok names =>
    rw [hl] at h
    dsimp only at h
    split at h
    · cases h
    · next hg => exact ⟨names, rfl, hg, (Except.ok.inj h).symm⟩

/-- A file that is written stands where its path leads, and leaves all others alone. -/
theorem writeFile_spec {bytes : List UInt8} (h : t.writeFile p bytes = .ok t') :
    ∃ names, t'.locate p = .ok names ∧ t'.get? names = some (.file bytes) ∧
      Spares (some names) t t' := by
  obtain ⟨names, hl, hg, rfl⟩ := writeFile_eq_ok h
  have hspares := spares_insert_file bytes hg
  have hne : names ≠ [] := by
    rintro rfl
    exact hg rfl
  exact ⟨names, hspares.locate hl, get?_insert_self t _ hne, hspares⟩

end FileTree

/-! ## Writing texts -/

open FileTree (Spares)

variable [TemplateEngine]

theorem writeText_eq_ok {files files' : FileTree} {p : Path} {text : String}
    (h : writeText files p text = .ok files') :
    '\x00' ∉ p.toString.toList ∧ ∃ made, files.makeDirectories p.parent = .ok made ∧
      made.writeFile p (Text.Utf8.encode text) = .ok files' := by
  unfold writeText at h
  split at h
  · cases h
  · next hnull =>
    refine ⟨by simpa using hnull, ?_⟩
    cases hmade : files.makeDirectories p.parent with
    | error e =>
      rw [hmade] at h
      cases h
    | ok made =>
      rw [hmade] at h
      dsimp only at h
      cases hwritten : made.writeFile p (Text.Utf8.encode text) with
      | error e =>
        rw [hwritten] at h
        cases h
      | ok written =>
        rw [hwritten] at h
        cases h
        exact ⟨made, rfl, hwritten⟩

/-- A text that is written stands where its path leads, and leaves all other files alone. -/
theorem writeText_spec {files files' : FileTree} {p : Path} {text : String}
    (h : writeText files p text = .ok files') :
    ∃ names, files'.locate p = .ok names ∧
      files'.get? names = some (.file (Text.Utf8.encode text)) ∧
      Spares (some names) files files' := by
  obtain ⟨-, made, hmade, hwritten⟩ := writeText_eq_ok h
  obtain ⟨names, hl, hg, hspares⟩ := FileTree.writeFile_spec hwritten
  exact ⟨names, hl, hg, (FileTree.spares_makeDirectories hmade).trans hspares⟩

def writeAll (files : FileTree) (texts : List (Path × String)) : Except Abort FileTree :=
  texts.foldlM (fun files q => writeText files q.1 q.2) files

theorem writeAll_cons_eq_ok {files files' : FileTree} {p : Path} {text : String}
    {rest : List (Path × String)} (h : writeAll files ((p, text) :: rest) = .ok files') :
    ∃ next, writeText files p text = .ok next ∧ writeAll next rest = .ok files' := by
  unfold writeAll at h
  rw [List.foldlM_cons] at h
  dsimp only at h
  cases hnext : writeText files p text with
  | error a =>
    rw [hnext] at h
    cases h
  | ok next =>
    rw [hnext] at h
    exact ⟨next, rfl, h⟩

theorem writeAll_append (files : FileTree) (xs ys : List (Path × String)) :
    writeAll files (xs ++ ys) = (writeAll files xs >>= fun files => writeAll files ys) :=
  List.foldlM_append

/-- Whether the place of a path holds one of some texts, which goes there too. -/
def FileTree.HoldsOneOf (files : FileTree) (p : Path) (texts : List (Path × String)) : Prop :=
  ∃ names, files.locate p = .ok names ∧ ∃ q ∈ texts, files.locate q.1 = .ok names ∧
    files.get? names = some (.file (Text.Utf8.encode q.2))

/-- A text that has been written stands until another goes to the same place. -/
theorem writeAll_keeps {files files' : FileTree} {p q : Path} {text : String} {names : List String}
    {rest : List (Path × String)} (hp : files.locate p = .ok names)
    (hq : files.locate q = .ok names)
    (htext : files.get? names = some (.file (Text.Utf8.encode text)))
    (h : writeAll files rest = .ok files') : files'.HoldsOneOf p ((q, text) :: rest) := by
  induction rest generalizing files q text with
  | nil =>
    cases h
    exact ⟨names, hp, (q, text), List.mem_cons_self, hq, htext⟩
  | cons r rest ih =>
    obtain ⟨next, hnext, hrest⟩ := writeAll_cons_eq_ok h
    obtain ⟨written, hl, hg, hspares⟩ := writeText_spec hnext
    by_cases hsame : names = written
    · -- the next text goes to the same place, so it is the one that has to stand from there on
      subst hsame
      obtain ⟨names', hp', s, hs, hplace⟩ := ih (hspares.locate hp) hl hg hrest
      exact ⟨names', hp', s, List.mem_cons_of_mem _ hs, hplace⟩
    · have hkept := hspares.file names _ (fun heq => hsame (Option.some.inj heq)) htext
      obtain ⟨names', hp', s, hs, hplace⟩ :=
        ih (hspares.locate hp) (hspares.locate hq) hkept hrest
      refine ⟨names', hp', s, ?_, hplace⟩
      rcases List.mem_cons.mp hs with rfl | hs
      · exact List.mem_cons_self
      · exact List.mem_cons_of_mem _ (List.mem_cons_of_mem _ hs)

/-- When some texts have been written, the place of each holds it or a later one that went to the
same place. -/
theorem writeAll_holds {files files' : FileTree} {texts : List (Path × String)}
    (h : writeAll files texts = .ok files') {p : Path} {text : String}
    {rest : List (Path × String)} (hsuffix : (p, text) :: rest <:+ texts) :
    files'.HoldsOneOf p ((p, text) :: rest) := by
  induction texts generalizing files with
  | nil => simp at hsuffix
  | cons r texts ih =>
    obtain ⟨next, hnext, hrest⟩ := writeAll_cons_eq_ok h
    rcases List.suffix_cons_iff.mp hsuffix with heq | hlater
    · cases heq
      obtain ⟨names, hl, hg, -⟩ := writeText_spec hnext
      exact writeAll_keeps hl hl hg hrest
    · exact ih hrest hlater

end ModelScript
