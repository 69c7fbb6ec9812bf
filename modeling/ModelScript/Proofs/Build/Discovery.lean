import Mathlib.Data.List.Forall2
import ModelScript.Proofs.Build.Run
import ModelScript.Proofs.Files.Below

/-!
# Which sources are found

The sources of a setting are found by their names alone: everything below the source path whose name
has the ending of sources, at any depth and once, in the order of the parts of the paths
(`BuildSetting.sourceFiles_finds`).  So all files of such a name are found.  But directories of such
a name are found too, although no text can be read from them.

Where all that is found can be read, building the texts comes to the same as reading each source
when its turn comes, as long as nothing is written in between (`buildAll_congr`).

Trees are sound and plain here.  A run that begins with such a tree finds one for each of its
settings (`CommandLine.found_of_mem_attempts`).
-/

namespace ModelScript

open Text (unifyLineBreaks)
open Text.Utf8 (encode)

/-! ## Sources that read the same -/

/-- Whether two sources have the same name and read the same. -/
def Source.Agrees (files : FileTree) (x y : String × Source) : Prop :=
  x.1 = y.1 ∧ x.2.read files = y.2.read files

variable {files : FileTree}

section Building

variable [TemplateEngine]

theorem writeResult_none (files : FileTree) (r : FileResult) :
    writeResult none files r = pure files := by
  unfold writeResult
  cases r.output <;> rfl

/-- A build that writes nothing depends on what its sources read alone. -/
theorem buildAll_congr [DepthLimits] (pass : Pass) {xs ys : List (String × Source)}
    (h : List.Forall₂ (Source.Agrees files) xs ys) :
    buildAll pass none files xs = buildAll pass none files ys := by
  induction h with
  | nil => rfl
  | @cons x y xs ys hxy _ ih =>
    obtain ⟨file, source⟩ := x
    obtain ⟨_, other⟩ := y
    obtain ⟨rfl, hread⟩ := hxy
    have hfile : buildFile files pass file source = buildFile files pass file other := by
      unfold buildFile
      rw [hread]
    simp only [buildAll, hfile, writeResult_none, Logged.pure_def, ih]

end Building

/-! ## Sources that are read first -/

theorem mapM_eq_ok_iff {α β ε : Type} {f : α → Except ε β} {xs : List α} {ys : List β} :
    xs.mapM f = .ok ys ↔ List.Forall₂ (fun x y => f x = .ok y) xs ys := by
  induction xs generalizing ys with
  | nil => cases ys <;> simp [pure, Except.pure]
  | cons x xs ih =>
    rw [List.mapM_cons]
    cases hx : f x with
    | error e => cases ys <;> simp [hx, bind, Except.bind]
    | ok y =>
      cases hxs : xs.mapM f with
      | error e => cases ys <;> simp [hx, hxs, ← ih, bind, Except.bind]
      | ok zs => cases ys <;> simp [hx, hxs, ← ih, bind, Except.bind, pure, Except.pure]

theorem exists_forall₂_iff {α β : Type} {R : α → β → Prop} {xs : List α} :
    (∃ ys, List.Forall₂ R xs ys) ↔ ∀ x ∈ xs, ∃ y, R x y := by
  induction xs with
  | nil => simp
  | cons x xs ih =>
    rw [List.forall_mem_cons, ← ih]
    constructor
    · rintro ⟨_, _ | ⟨hx, hxs⟩⟩
      exact ⟨⟨_, hx⟩, _, hxs⟩
    · rintro ⟨⟨y, hx⟩, ys, hxs⟩
      exact ⟨y :: ys, .cons hx hxs⟩

namespace BuildSetting

variable {setting : BuildSetting} {texts : List (String × List Char)}

/-- Whether a source, which is given with its name, is read as some text. -/
def Reads (files : FileTree) (p : Path) (named : String × List Char) : Prop :=
  named.1 = p.toString ∧ (Source.path p).read files = .ok named.2

/-- Whether a source, which is given with its name, is a file that encodes some text. -/
def Holds (files : FileTree) (p : Path) (named : String × List Char) : Prop :=
  named.1 = p.toString ∧
    ∃ text, files.entry p = .ok (.file (encode text)) ∧ named.2 = unifyLineBreaks text.toList

theorem reads_iff_holds {p : Path} (hnull : '\x00' ∉ p.toString.toList)
    {named : String × List Char} : Reads files p named ↔ Holds files p named :=
  and_congr_right fun _ =>
    Source.read_path_eq_ok_iff.trans (FileTree.readText_eq_ok_iff hnull)

theorem readSources_eq_ok_iff :
    setting.readSources files = .ok texts ↔
      List.Forall₂ (Reads files) (setting.sourceFiles files) texts := by
  have hread (p : Path) (named : String × List Char) :
      (do return (p.toString, ← files.readText p p.toString) :
          Except ReadError (String × List Char)) = .ok named ↔ Reads files p named := by
    obtain ⟨name, content⟩ := named
    unfold Reads
    rw [Source.read_path_eq_ok_iff]
    cases files.readText p p.toString <;>
      simp [bind, Except.bind, pure, Except.pure, eq_comm]
  unfold readSources
  rw [mapM_eq_ok_iff]
  simp only [hread]

/-! ## The sources of a setting -/

theorem mem_sourceFiles_iff (hsound : files.Sound) {q : Path} :
    q ∈ setting.sourceFiles files ↔
      q.IsBelow setting.sourcePath ∧ sourceEnding.toList <:+ q.name.toList ∧
        ((∃ bytes, files.entry q = .ok (.file bytes)) ∨ files.entry q = .ok .directory) := by
  unfold sourceFiles
  rw [hsound.mem_entriesBelow_iff]
  refine and_congr_right fun _ => and_congr_right fun _ => ?_
  constructor
  · rintro ⟨e, he⟩
    cases e with
    | file bytes => exact Or.inl ⟨bytes, he⟩
    | directory => exact Or.inr he
  · rintro (⟨bytes, hfile⟩ | hdirectory)
    · exact ⟨_, hfile⟩
    · exact ⟨_, hdirectory⟩

theorem exists_readSources_iff (hplain : files.Plain) :
    (∃ texts, setting.readSources files = .ok texts) ↔
      ∀ q ∈ setting.sourceFiles files, ∃ text, files.entry q = .ok (.file (encode text)) := by
  simp only [readSources_eq_ok_iff]
  rw [exists_forall₂_iff]
  refine forall₂_congr fun q hq => ?_
  simp only [reads_iff_holds (hplain.entriesBelow hq)]
  constructor
  · rintro ⟨_, -, text, hentry, -⟩
    exact ⟨text, hentry⟩
  · rintro ⟨text, hentry⟩
    exact ⟨(q.toString, _), rfl, text, hentry, rfl⟩

theorem holds_of_readSources (hplain : files.Plain)
    (h : setting.readSources files = .ok texts) :
    List.Forall₂ (Holds files) (setting.sourceFiles files) texts := by
  have hnamed : ∀ q ∈ setting.sourceFiles files, '\x00' ∉ q.toString.toList :=
    fun q => hplain.entriesBelow
  refine ((List.forall₂_and_left _ _).mpr ⟨hnamed, readSources_eq_ok_iff.mp h⟩).imp ?_
  rintro p named ⟨hnull, hreads⟩
  exact (reads_iff_holds hnull).mp hreads

/-- Sources that are read first agree with those that are read when their turn comes. -/
theorem agrees_of_readSources (h : setting.readSources files = .ok texts) :
    List.Forall₂ (Source.Agrees files) (texts.map fun named => (named.1, .text named.2))
      (setting.sources files) := by
  unfold sources
  rw [List.forall₂_map_left_iff, List.forall₂_map_right_iff]
  exact (readSources_eq_ok_iff.mp h).flip.imp fun named p hreads => ⟨hreads.1, hreads.2.symm⟩

theorem names_of_readSources (h : setting.readSources files = .ok texts) :
    texts.map Prod.fst = (setting.sources files).map Prod.fst := by
  rw [← List.forall₂_eq_eq_eq, List.forall₂_map_left_iff, List.forall₂_map_right_iff]
  have hagrees := agrees_of_readSources h
  rw [List.forall₂_map_left_iff] at hagrees
  exact hagrees.imp fun named source hsame => hsame.1

/-- What the sources of a setting are, and how they are read.  Everything below the source path that
is named as a source is found, be it a file or a directory, and nothing else, each once and in the
order of the parts of the paths.  The texts of all sources can be read first if and only if each
holds a text, so no directory is found; then they are the same sources in the same order, and a
build that writes nothing comes to the same. -/
theorem sourceFiles_finds [DepthLimits] [TemplateEngine] (setting : BuildSetting)
    {files : FileTree} (hsound : files.Sound) (hplain : files.Plain) :
    (∀ q, q ∈ setting.sourceFiles files ↔
        q.IsBelow setting.sourcePath ∧ sourceEnding.toList <:+ q.name.toList ∧
          ((∃ bytes, files.entry q = .ok (.file bytes)) ∨ files.entry q = .ok .directory)) ∧
      (setting.sourceFiles files).Pairwise (fun q r => q.parts < r.parts) ∧
      ((∃ texts, setting.readSources files = .ok texts) ↔
        ∀ q ∈ setting.sourceFiles files,
          ∃ text, files.entry q = .ok (.file (encode text))) ∧
      ∀ texts, setting.readSources files = .ok texts →
        List.Forall₂ (Holds files) (setting.sourceFiles files) texts ∧
        texts.map Prod.fst = (setting.sources files).map Prod.fst ∧
        ∀ pass, buildAll pass none files (texts.map fun named => (named.1, .text named.2))
          = buildAll pass none files (setting.sources files) := by
  refine ⟨fun q => mem_sourceFiles_iff hsound, hsound.pairwise_entriesBelow _ _,
    exists_readSources_iff hplain, fun texts h => ?_⟩
  exact ⟨holds_of_readSources hplain h, names_of_readSources h,
    fun pass => buildAll_congr pass (agrees_of_readSources h)⟩

/-- A directory stands in front of the source whose name goes on behind its own. -/
theorem sourceFiles_finds_nested :
    let setting : BuildSetting := ⟨⟨0, ["src"]⟩, ⟨0, ["t"]⟩, ⟨0, ["build"]⟩, "out", []⟩
    let files : FileTree := ⟨[], [(["src"], .directory), (["src", "a"], .directory),
      (["src", "a", "b.zolang"], .file []), (["src", "a.zolang"], .file [])]⟩
    files.Sound ∧ files.Plain ∧
      setting.sourceFiles files = [⟨0, ["src", "a", "b.zolang"]⟩, ⟨0, ["src", "a.zolang"]⟩] ∧
      ∃ texts, setting.readSources files = .ok texts ∧
        ∀ pass, buildAll pass none files (texts.map fun named => (named.1, .text named.2))
          = buildAll pass none files (setting.sources files) := by
  intro setting files
  have hsound : files.Sound := ⟨rfl, by decide, by decide, by decide⟩
  have hplain : files.Plain := ⟨by decide, by decide⟩
  have hfound : setting.sourceFiles files
      = [⟨0, ["src", "a", "b.zolang"]⟩, ⟨0, ["src", "a.zolang"]⟩] := by
    have hlocate : files.locate setting.sourcePath = .ok ["src"] := by decide
    have hdirectory : files.isDirectory setting.sourcePath = true := by decide
    exact FileTree.entriesBelow_eq_of_pairwise hlocate hdirectory (by decide +kernel)
      (by decide +kernel)
  obtain ⟨-, -, hread, htexts⟩ := sourceFiles_finds setting hsound hplain
  have hall : ∀ q ∈ setting.sourceFiles files,
      ∃ text, files.entry q = .ok (.file (encode text)) := by
    rw [hfound]
    simp only [List.forall_mem_cons]
    exact ⟨⟨"", by decide⟩, ⟨"", by decide⟩, nofun⟩
  obtain ⟨texts, hok⟩ := hread.mpr hall
  obtain ⟨-, -, hbuild⟩ := htexts texts hok
  exact ⟨hsound, hplain, hfound, texts, hok, hbuild⟩

/-- A directory that is named as a source is found, and no text can be read from it. -/
theorem sourceFiles_finds_directory :
    let setting : BuildSetting := ⟨⟨0, ["src"]⟩, ⟨0, ["t"]⟩, ⟨0, ["build"]⟩, "out", []⟩
    let files : FileTree := ⟨[], [(["src"], .directory), (["src", "a.zolang"], .directory),
      (["src", "a.zolang", "b.zolang"], .file [])]⟩
    let directory : Path := ⟨0, ["src", "a.zolang"]⟩
    files.Sound ∧ files.Plain ∧
      setting.sourceFiles files = [directory, ⟨0, ["src", "a.zolang", "b.zolang"]⟩] ∧
      files.entry directory = .ok .directory ∧
      setting.readSources files = .error (.refused ⟨.isDirectory, "src/a.zolang"⟩) := by
  intro setting files directory
  have hfound : setting.sourceFiles files
      = [directory, ⟨0, ["src", "a.zolang", "b.zolang"]⟩] := by
    have hlocate : files.locate setting.sourcePath = .ok ["src"] := by decide
    have hdirectory : files.isDirectory setting.sourcePath = true := by decide
    exact FileTree.entriesBelow_eq_of_pairwise hlocate hdirectory (by decide +kernel)
      (by decide +kernel)
  refine ⟨⟨rfl, by decide, by decide, by decide⟩, ⟨by decide, by decide⟩, hfound, by decide, ?_⟩
  unfold readSources
  rw [hfound]
  decide +kernel

end BuildSetting

/-! ## The trees of a run -/

/-- Each setting of a run finds a sound and plain tree, whatever those in front of it wrote. -/
theorem CommandLine.found_of_mem_attempts [DepthLimits] [TemplateEngine] {files : FileTree}
    (hsound : files.Sound) (hplain : files.Plain) (settings : List BuildSetting) :
    ∀ a ∈ attempts files settings, a.found.Sound ∧ a.found.Plain := by
  induction settings generalizing files with
  | nil => simp [attempts]
  | cons setting rest ih =>
    have hbuilt := setting.build_runs files
    rw [attempts]
    refine List.forall_mem_cons.mpr ⟨⟨hsound, hplain⟩, ?_⟩
    split
    · simp
    · exact ih (hbuilt.sound hsound) (hbuilt.plain hplain)

end ModelScript
