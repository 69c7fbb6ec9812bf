import ModelScript.Proofs.Files.Reading
import ModelScript.Proofs.Files.Writing

/-!
# Trees with plain names

No name of a file can have a character of code zero, and a path with one cannot be asked for.  A
tree without such names stays one when texts are written (`FileTree.Plain.writeAll`), so the
entries that are found below a directory can always be asked for (`FileTree.Plain.entriesBelow`).
-/

namespace ModelScript

/-! ## Names -/

/-- Whether no name in a list has a character of code zero. -/
def IsPlain (names : List String) : Prop := ∀ name ∈ names, '\x00' ∉ name.toList

instance (names : List String) : Decidable (IsPlain names) :=
  inferInstanceAs (Decidable (∀ name ∈ names, '\x00' ∉ name.toList))

theorem IsPlain.append {names others : List String} (h : IsPlain names) (h' : IsPlain others) :
    IsPlain (names ++ others) :=
  fun name hname => (List.mem_append.mp hname).elim (h name) (h' name)

theorem IsPlain.subset {names others : List String} (h : IsPlain others) (hsub : names ⊆ others) :
    IsPlain names :=
  fun name hname => h name (hsub hname)

/-- What is joined has the elements of its parts, apart from those of the joiner. -/
theorem mem_intercalate_iff {α : Type} {a : α} {joiner : List α} (h : a ∉ joiner)
    (parts : List (List α)) : a ∈ joiner.intercalate parts ↔ ∃ part ∈ parts, a ∈ part := by
  induction parts with
  | nil => simp [List.intercalate]
  | cons part rest ih =>
    cases rest with
    | nil => simp [List.intercalate]
    | cons next rest =>
      rw [List.intercalate_cons_cons, List.mem_append, List.mem_append, ih,
        List.exists_mem_cons_iff]
      simp [h]

theorem Path.notMem_toString_iff (p : Path) : '\x00' ∉ p.toString.toList ↔ IsPlain p.parts := by
  have hslashes : '\x00' ∉ List.replicate p.slashes '/' := by
    rw [List.mem_replicate]
    rintro ⟨-, h⟩
    cases h
  unfold Path.toString
  split
  · next h =>
    have hparts : p.parts = [] := by simp_all
    rw [hparts]
    exact ⟨fun _ _ hname => (nomatch hname), fun _ => by decide⟩
  · rw [String.toList_append, String.toList_ofList, String.toList_intercalate, List.mem_append,
      mem_intercalate_iff (by decide)]
    simp [hslashes, IsPlain]

/-! ## Trees -/

namespace FileTree

variable {t t' : FileTree} {p : Path}

/-- Whether no name in a tree has a character of code zero. -/
structure Plain (t : FileTree) : Prop where
  here : IsPlain t.here
  entries : ∀ e ∈ t.entries, IsPlain e.1

theorem Plain.insert (h : t.Plain) {names : List String} (entry : Entry) (hnames : IsPlain names) :
    (t.insert names entry).Plain where
  here := h.here
  entries := List.forall_mem_cons.mpr
    ⟨hnames, fun e he => h.entries e (List.mem_of_mem_filter he)⟩

theorem Plain.get? (h : t.Plain) {names : List String} (hsome : (t.get? names).isSome) :
    IsPlain names := by
  obtain ⟨entry, hentry⟩ := Option.isSome_iff_exists.mp hsome
  by_cases hne : names = []
  · rw [hne]
    exact fun name hname => nomatch hname
  · exact h.entries _ (mem_of_get? hne hentry)

theorem plain_follow {base parts names : List String} (hbase : IsPlain base)
    (hparts : IsPlain parts) (h : t.follow base parts = .ok names) : IsPlain names := by
  induction parts generalizing base with
  | nil =>
    cases h
    exact hbase
  | cons part rest ih =>
    obtain ⟨hpart, hrest⟩ := List.forall_mem_cons.mp hparts
    rw [follow] at h
    split at h
    · cases h
    · cases h
    · refine ih ?_ hrest h
      split
      · exact hbase.subset (List.dropLast_subset base)
      · exact hbase.append (List.forall_mem_singleton.mpr hpart)

theorem Plain.locate (h : t.Plain) {names : List String} (hp : IsPlain p.parts)
    (hl : t.locate p = .ok names) : IsPlain names := by
  refine plain_follow ?_ hp hl
  split
  · exact h.here
  · exact fun name hname => nomatch hname

/-- A way that leads to an entry begins at one. -/
theorem isSome_get?_of_follow {base parts names : List String}
    (h : t.follow base parts = .ok names) (hsome : (t.get? names).isSome) :
    (t.get? base).isSome := by
  cases parts with
  | nil =>
    cases h
    exact hsome
  | cons part rest =>
    rw [follow] at h
    split at h
    · cases h
    · next heq => simp [heq]
    · next heq => simp [heq]

theorem Plain.of_follow (h : t.Plain) {base parts names : List String}
    (hf : t.follow base parts = .ok names) (hsome : (t.get? names).isSome) : IsPlain parts := by
  induction parts generalizing base with
  | nil => exact fun name hname => nomatch hname
  | cons part rest ih =>
    rw [follow] at hf
    split at hf
    · cases hf
    · cases hf
    · refine List.forall_mem_cons.mpr ⟨?_, ih hf⟩
      split at hf
      · next hup =>
        rw [hup]
        decide
      · -- the way goes on from the names that end in this part, so they lead to an entry
        exact h.get? (isSome_get?_of_follow hf hsome) part (by simp)

theorem Plain.makeDirectories (h : t.Plain) (hp : IsPlain p.parts)
    (hmade : t.makeDirectories p = .ok t') : t'.Plain := by
  refine makeDirectoriesFrom_induction (fun t₁ t₂ q hq hmade ht => ?_) hmade h
  obtain ⟨names, hl, -, rfl⟩ := makeDirectory_eq_ok hmade
  exact ht.insert _ (ht.locate (hp.subset fun part hpart => List.mem_reverse.mp (hq hpart)) hl)

theorem Plain.writeFile (h : t.Plain) (hp : IsPlain p.parts) {bytes : List UInt8}
    (hwritten : t.writeFile p bytes = .ok t') : t'.Plain := by
  obtain ⟨names, hl, -, rfl⟩ := writeFile_eq_ok hwritten
  exact h.insert _ (h.locate hp hl)

theorem Plain.writeText [TemplateEngine] (h : t.Plain) {text : String}
    (hwritten : writeText t p text = .ok t') : t'.Plain := by
  obtain ⟨hnull, made, hmade, hwritten⟩ := writeText_eq_ok hwritten
  have hp := p.notMem_toString_iff.mp hnull
  have hparent := h.makeDirectories (hp.subset (List.dropLast_subset _)) hmade
  exact hparent.writeFile hp hwritten

theorem Plain.writeAll [TemplateEngine] (h : t.Plain) {texts : List (Path × String)}
    (hwritten : writeAll t texts = .ok t') : t'.Plain := by
  induction texts generalizing t with
  | nil =>
    cases hwritten
    exact h
  | cons q rest ih =>
    obtain ⟨next, hnext, hrest⟩ := writeAll_cons_eq_ok hwritten
    exact ih (h.writeText hnext) hrest

theorem Plain.entriesBelow (h : t.Plain) {ending : String} {q : Path}
    (hq : q ∈ t.entriesBelow p ending) : '\x00' ∉ q.toString.toList := by
  rw [q.notMem_toString_iff]
  obtain ⟨base, -, hdirectory, e, hentry, -, -, -, rfl⟩ := mem_entriesBelow_iff.mp hq
  obtain ⟨names, hlocate, hget⟩ := entry_eq_ok_iff.mp (isDirectory_iff.mp hdirectory)
  have hparts : IsPlain p.parts := h.of_follow hlocate (by simp [hget])
  exact hparts.append ((h.entries e hentry).subset (List.drop_subset _ _))

end FileTree

end ModelScript
