import ModelScript.Files.Tree
import ModelScript.Proofs.Text.Utf8

/-!
# How a file is read

The bytes of a file are read as the text that they encode, and then its line breaks are unified.
What can go wrong is told apart by the path, by what it leads to and by the bytes there
(`FileTree.reading_readText`).  Unifying line breaks leaves each line as it was
(`Text.infix_of_unifyLineBreaks`).  Which paths are found below a directory is told by
`FileTree.mem_entriesBelow_iff`.
-/

namespace ModelScript

/-! ## Line breaks -/

namespace Text

variable {run text : List Char}

theorem eq_nil_of_prefix_cons {c : Char} {rest : List Char} (hrun : c ∉ run)
    (h : run <+: c :: rest) : run = [] := by
  cases run with
  | nil => rfl
  | cons d run =>
    obtain ⟨rfl, -⟩ := List.cons_prefix_cons.1 h
    exact absurd List.mem_cons_self hrun

theorem prefix_of_unifyLineBreaks (hrun : '\n' ∉ run) (h : run <+: unifyLineBreaks text) :
    run <+: text := by
  fun_induction unifyLineBreaks text generalizing run with
  | case1 => exact h
  | case2 rest ih => exact eq_nil_of_prefix_cons hrun h ▸ List.nil_prefix
  | case3 rest _ ih => exact eq_nil_of_prefix_cons hrun h ▸ List.nil_prefix
  | case4 c rest _ _ ih =>
    cases run with
    | nil => exact List.nil_prefix
    | cons d run =>
      obtain ⟨rfl, hrest⟩ := List.cons_prefix_cons.1 h
      have hrun' : '\n' ∉ run := fun hmem => hrun (List.mem_cons_of_mem _ hmem)
      exact List.cons_prefix_cons.2 ⟨rfl, ih hrun' hrest⟩

/-- What stands within a line stood in the text before its line breaks were unified. -/
theorem infix_of_unifyLineBreaks (hrun : '\n' ∉ run) (h : run <:+: unifyLineBreaks text) :
    run <:+: text := by
  fun_induction unifyLineBreaks text with
  | case1 => exact h
  | case2 rest ih =>
    obtain hfront | hrest := List.infix_cons_iff.1 h
    · exact eq_nil_of_prefix_cons hrun hfront ▸ List.nil_infix
    · exact (ih hrest).trans ⟨['\r', '\n'], [], by simp⟩
  | case3 rest _ ih =>
    obtain hfront | hrest := List.infix_cons_iff.1 h
    · exact eq_nil_of_prefix_cons hrun hfront ▸ List.nil_infix
    · exact List.infix_cons (ih hrest)
  | case4 c rest hpair hreturn ih =>
    obtain hfront | hrest := List.infix_cons_iff.1 h
    · refine (prefix_of_unifyLineBreaks hrun ?_).isInfix
      rwa [unifyLineBreaks.eq_4 _ _ hpair hreturn]
    · exact List.infix_cons (ih hrest)

end Text

/-! ## Entries -/

namespace FileTree

variable {t : FileTree} {p : Path} {names : List String} {e : Entry}

theorem mem_of_get? (hne : names ≠ []) (h : t.get? names = some e) :
    (names, e) ∈ t.entries := by
  unfold FileTree.get? at h
  rw [if_neg (by simpa using hne)] at h
  obtain ⟨before, after, hentries, -⟩ := List.lookup_eq_some_iff.mp h
  simp [hentries]

theorem entry_eq_ok_iff :
    t.entry p = .ok e ↔ ∃ names, t.locate p = .ok names ∧ t.get? names = some e := by
  unfold FileTree.entry
  cases t.locate p with
  | error problem => simp [bind, Except.bind]
  | ok names =>
    cases hg : t.get? names with
    | none => simp [bind, Except.bind, hg]
    | some e' => simp [bind, Except.bind, pure, Except.pure, hg]

theorem isDirectory_iff : t.isDirectory p = true ↔ t.entry p = .ok .directory := by
  unfold isDirectory
  split
  · next h => simp [h]
  · next h => simpa using h

end FileTree

/-! ## Texts of files -/

/-- How reading the text of a file ends, by what its path leads to. -/
inductive FileTree.Reading (files : FileTree) (p : Path) (shown : String) :
    Except ReadError (List Char) → Prop
  | nullByte (hnull : '\x00' ∈ shown.toList) : Reading files p shown (.error .nullByte)
  | refused {e : FileError} (hnull : '\x00' ∉ shown.toList)
    (hentry : ∀ bytes, files.entry p ≠ .ok (.file bytes)) :
    Reading files p shown (.error (.refused e))
  | undecodable {bytes : List UInt8} {f : Text.Utf8.Fault} (hnull : '\x00' ∉ shown.toList)
    (hentry : files.entry p = .ok (.file bytes)) (hbytes : ∀ text, Text.Utf8.encode text ≠ bytes) :
    Reading files p shown (.error (.undecodable f))
  | text {text : String} (hnull : '\x00' ∉ shown.toList)
    (hentry : files.entry p = .ok (.file (Text.Utf8.encode text))) :
    Reading files p shown (.ok (Text.unifyLineBreaks text.toList))

/-- The bytes of a text are read as that text, with unified line breaks. -/
theorem FileTree.readText_of_entry {files : FileTree} {p : Path} {shown text : String}
    (hnull : '\x00' ∉ shown.toList)
    (hentry : files.entry p = .ok (.file (Text.Utf8.encode text))) :
    files.readText p shown = .ok (Text.unifyLineBreaks text.toList) := by
  unfold readText readBytes
  rw [if_neg (fun h => hnull (List.contains_iff_mem.1 h)), hentry]
  simp only [bind, Except.bind, Text.Utf8.decode_encode]
  rfl

theorem FileTree.reading_readText (files : FileTree) (p : Path) (shown : String) :
    files.Reading p shown (files.readText p shown) := by
  by_cases hnull : '\x00' ∈ shown.toList
  · unfold readText readBytes
    rw [if_pos (List.contains_iff_mem.2 hnull)]
    exact .nullByte hnull
  by_cases hfile : ∃ bytes, files.entry p = .ok (.file bytes)
  · obtain ⟨bytes, hentry⟩ := hfile
    by_cases htext : ∃ text, Text.Utf8.encode text = bytes
    · obtain ⟨text, rfl⟩ := htext
      rw [readText_of_entry hnull hentry]
      exact .text hnull hentry
    · unfold readText readBytes
      rw [if_neg (fun h => hnull (List.contains_iff_mem.1 h)), hentry]
      simp only [bind, Except.bind]
      cases hdecode : Text.Utf8.decode bytes with
      | error f => exact .undecodable hnull hentry fun text h => htext ⟨text, h⟩
      | ok cs => exact absurd ⟨_, (Text.Utf8.decode_eq_ok_iff bytes cs).1 hdecode⟩ htext
  · have hentry : ∀ bytes, files.entry p ≠ .ok (.file bytes) := fun bytes h => hfile ⟨bytes, h⟩
    unfold readText readBytes
    rw [if_neg (fun h => hnull (List.contains_iff_mem.1 h))]
    split
    · next bytes h => exact absurd h (hentry bytes)
    · exact .refused hnull hentry
    · exact .refused hnull hentry

theorem FileTree.readText_eq_ok_iff {files : FileTree} {p : Path} {shown : String}
    (hnull : '\x00' ∉ shown.toList) {content : List Char} : files.readText p shown = .ok content ↔
      ∃ text, files.entry p = .ok (.file (Text.Utf8.encode text)) ∧
        content = Text.unifyLineBreaks text.toList := by
  constructor
  · intro h
    have hreading := files.reading_readText p shown
    rw [h] at hreading
    cases hreading with
    | text _ hentry => exact ⟨_, hentry, rfl⟩
  · rintro ⟨text, hentry, rfl⟩
    exact files.readText_of_entry hnull hentry

/-! ## Entries below a directory -/

/-- The paths that are found below a directory: those of the entries behind it whose names have the
ending that is looked for. -/
theorem FileTree.mem_entriesBelow_iff {files : FileTree} {p q : Path} {ending : String} :
    q ∈ files.entriesBelow p ending ↔
      ∃ base, files.locate p = .ok base ∧ files.isDirectory p = true ∧
        ∃ e ∈ files.entries, base <+: e.1 ∧ base.length < e.1.length ∧
          ending.toList <:+ (e.1.getLast?.getD "").toList ∧
          q = { p with parts := p.parts ++ e.1.drop base.length } := by
  unfold entriesBelow
  split
  · next base hlocate hdirectory =>
    rw [List.mem_mergeSort, List.mem_filterMap]
    constructor
    · rintro ⟨⟨names, entry⟩, hentry, hsome⟩
      dsimp only at hsome
      split at hsome
      · next hchecks =>
        cases hsome
        simp only [Bool.and_eq_true, decide_eq_true_eq, List.isPrefixOf_iff_prefix,
          List.isSuffixOf_iff_suffix] at hchecks
        obtain ⟨⟨hbelow, hlonger⟩, hending⟩ := hchecks
        exact ⟨base, hlocate, hdirectory, _, hentry, hbelow, hlonger, hending, rfl⟩
      · cases hsome
    · rintro ⟨_, hbase, -, ⟨names, entry⟩, hentry, hbelow, hlonger, hending, rfl⟩
      cases hlocate.symm.trans hbase
      refine ⟨_, hentry, if_pos ?_⟩
      simpa using ⟨⟨hbelow, hlonger⟩, hending⟩
  · next hnone =>
    exact ⟨nofun, fun ⟨base, hlocate, hdirectory, _⟩ =>
      (hnone base hlocate hdirectory).elim⟩

/-- Where a tree lists the entries below a directory in order, they are found as they are listed. -/
theorem FileTree.entriesBelow_eq_of_pairwise {files : FileTree} {p : Path} {ending : String}
    {base : List String} {found : List Path} (hlocate : files.locate p = .ok base)
    (hdirectory : files.isDirectory p = true)
    (hlisted : (files.entries.filterMap fun e =>
      if base.isPrefixOf e.1 && base.length < e.1.length
          && ending.toList.isSuffixOf (e.1.getLast?.getD "").toList then
        some { p with parts := p.parts ++ e.1.drop base.length }
      else none) = found)
    (horder : found.Pairwise fun q r => before q r = true) :
    files.entriesBelow p ending = found := by
  unfold entriesBelow
  rw [hlocate, hdirectory]
  dsimp only
  rw [hlisted, List.mergeSort_of_pairwise horder]

end ModelScript
