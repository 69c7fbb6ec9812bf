import ModelScript.Proofs.Build.Run
import ModelScript.Proofs.Files.Contents

/-!
# Outputs of a build

What a build that goes through all of its sources does to the file tree.  Each source is read,
compiled and rendered on what those in front of it leave, and its output is written at once, but
what comes of it is as good as writing all outputs at the end (`Pass.Runs.writeAll_eq`).  A file that
fails has no output.  So a build changes nothing but the places of its outputs, where the last one
stands, and a file that failed leaves its place alone (`buildAll_outputs`).
-/

namespace ModelScript

section Builds

variable [TemplateEngine] {setting : BuildSetting}

/-! ## What a build changes -/

namespace FileResult

/-- Whether a file went well and its output path leads to some names. -/
structure GoesTo (setting : BuildSetting) (here names : List String) (r : FileResult) : Prop where
  failure_eq : r.failure = none
  exists_path : ∃ p, setting.outputPath (.ofString r.file) = .ok p ∧ p.place here = names

variable {r : FileResult}

/-- A file that went well and goes somewhere is placed there, if the pass renders. -/
theorem GoesTo.placed {here names : List String} (h : r.GoesTo setting here names)
    (houtput : r.output.isSome = true) :
    ∃ q, r.placed? setting = some q ∧ q.1.place here = names := by
  obtain ⟨p, hp, hplace⟩ := h.exists_path
  obtain ⟨text, htext⟩ := Option.isSome_iff_exists.mp houtput
  exact ⟨(p, text), by simp [placed?, htext, hp], hplace⟩

end FileResult

variable [DepthLimits] {pass : Pass} {files : FileTree}

/-- Whether the file in a place is the output of the last of those that went well and lead there. -/
def Built.HoldsLast (b : Built) (setting : BuildSetting) (here names : List String) : Prop :=
  ∃ before r after p text, b.results = before ++ r :: after ∧ r.failure = none ∧
    setting.outputPath (.ofString r.file) = .ok p ∧ b.files.locate p = .ok names ∧
    (∀ later ∈ after, ¬ later.GoesTo setting here names) ∧
    r.output = some text ∧ b.files.content? names = some (Text.Utf8.encode text)

/-- After a build that is not ended every file is an output, the last one that went there, or what
it was. -/
theorem buildAll_content {sources : List (String × Source)} (names : List String) :
    let b := buildAll pass (some setting) files sources
    b.abort = none → (b.HoldsLast setting files.here names ∧
        ∃ r ∈ b.results, r.GoesTo setting files.here names) ∨
      b.files.content? names = files.content? names := by
  intro b habort
  have hruns : pass.Runs setting files sources b.results b.files none :=
    habort ▸ buildAll_runs pass setting files sources
  obtain ⟨written, p, text, rest, htexts, hl, hp, hrest, hcontent⟩ | ⟨-, hkept⟩ :=
    content?_writeAll hruns.writeAll_eq names
  · obtain ⟨before, others, hsplit, -, hothers⟩ := List.filterMap_eq_append_iff.mp htexts
    obtain ⟨unplaced, r, after, rfl, -, hplaced, hafter⟩ := List.filterMap_eq_cons_iff.mp hothers
    rw [← List.append_assoc] at hsplit
    obtain ⟨houtput, hpath⟩ := FileResult.placed?_eq_some hplaced
    have hr : r ∈ b.results := by simp [hsplit]
    have hdecided : (pass.templates.isSome && r.failure.isNone) = true := by
      rw [← hruns.decided r hr, houtput]
      rfl
    obtain ⟨hrenders, hsucceeded⟩ := Bool.and_eq_true_iff.mp hdecided
    have hfailure : r.failure = none := Option.isNone_iff_eq_none.mp hsucceeded
    -- a later file that goes there has an output too, since the pass renders
    have hlast : ∀ later ∈ after, ¬ later.GoesTo setting files.here names := by
      intro later hlater hgoes
      have hmem : later ∈ b.results := by simp [hsplit, hlater]
      have hsome : later.output.isSome = true := by
        rw [hruns.decided later hmem, hrenders, hgoes.failure_eq]
        rfl
      obtain ⟨q, hq, hplace⟩ := hgoes.placed hsome
      exact hrest q (hafter ▸ List.mem_filterMap.mpr ⟨later, hlater, hq⟩) hplace
    exact Or.inl ⟨⟨_, r, after, p, text, hsplit, hfailure, hpath, hl, hlast, houtput, hcontent⟩,
      r, hr, hfailure, p, hpath, hp⟩
  · exact Or.inr hkept

/-- What a build changes that goes through all of its sources.  Each source has its result, which is
what reading, compiling and rendering make of it on the files that the build of those in front of it
leaves.  Each file that the build changes is in the place of a source that went well, and has the
output of the last such source.  A source that failed has no output, and the file in its place is
what it was unless another source went there. -/
theorem buildAll_outputs (pass : Pass) (setting : BuildSetting) (files : FileTree)
    (sources : List (String × Source))
    (h : (buildAll pass (some setting) files sources).abort = none) :
    let b := buildAll pass (some setting) files sources
    b.results.map FileResult.file = sources.map Prod.fst ∧
      (∀ before source after, sources = before ++ source :: after →
        ∃ earlier r later, b.results = earlier ++ r :: later ∧ earlier.length = before.length ∧
          r.Rendered pass (buildAll pass (some setting) files before).files source) ∧
      (∀ names, b.files.content? names ≠ files.content? names →
        b.HoldsLast setting files.here names) ∧
      ∀ r ∈ b.results, r.failure.isSome = true →
        r.output = none ∧ ∀ p, setting.outputPath (.ofString r.file) = .ok p →
          (∀ other ∈ b.results, ¬ other.GoesTo setting files.here (p.place files.here)) →
            b.files.content? (p.place files.here) = files.content? (p.place files.here) := by
  intro b
  have hruns : pass.Runs setting files sources b.results b.files none :=
    h ▸ buildAll_runs pass setting files sources
  refine ⟨hruns.names_eq, ?_, fun names hne => ?_, fun r hr hfailed => ⟨?_, fun p hp hothers => ?_⟩⟩
  · rintro before source after rfl
    exact buildAll_rendered h
  · obtain ⟨hlast, -⟩ | hkept := buildAll_content names h
    · exact hlast
    · exact absurd hkept hne
  · have houtput := hruns.decided r hr
    rw [Option.isNone_eq_false_iff.mpr hfailed, Bool.and_false] at houtput
    exact Option.isNone_iff_eq_none.mp (Option.isSome_eq_false_iff.mp houtput)
  · obtain ⟨-, other, hother, hgoes⟩ | hkept := buildAll_content (p.place files.here) h
    · exact absurd hgoes (hothers other hother)
    · exact hkept

end Builds

/-- A template, and what an earlier build has left of a source that is gone. -/
def leftFiles : FileTree := ⟨[], [
  (["t"], .directory),
  (["t", "codeBlock.j2"], .file (Text.Utf8.encode "-")),
  (["build"], .directory),
  (["build", "m.out"], .file [0x2b])]⟩

/-- The source that is gone fails. -/
theorem buildFile_leftFiles_gone :
    (buildFile leftFiles ⟨[], some "t"⟩ "src/m.zolang" (.path ⟨0, ["src", "m.zolang"]⟩)).outcome
      = .ok ⟨"src/m.zolang", none, none, some (.refused ⟨.notFound, "src/m.zolang"⟩)⟩ := rfl

theorem buildFile_leftFiles_made :
    (buildFile leftFiles ⟨[], some "t"⟩ "src/a.zolang" (.text [])).outcome
      = .ok ⟨"src/a.zolang", some (fileContext [] []), some "-", none⟩ := by
  refine CommandLine.buildFile_nil _ rfl rfl ?_
  unfold fileContext bodyContext Statement.node Value.render
  rfl

theorem writeText_leftFiles : writeText leftFiles ⟨0, ["build", "a.out"]⟩ "-"
    = .ok (leftFiles.insert ["build", "a.out"] (.file (Text.Utf8.encode "-"))) := rfl

/-- The place of the source that is gone is as it was, and the one behind it has its output. -/
theorem buildAll_outputs_leftFiles :
    let setting := CommandLine.blockedSetting
    let b := buildAll ⟨[], some "t"⟩ (some setting) leftFiles
      [("src/m.zolang", .path ⟨0, ["src", "m.zolang"]⟩), ("src/a.zolang", .text [])]
    b.abort = none ∧ b.HoldsLast setting [] ["build", "a.out"] ∧
      b.files.content? ["build", "m.out"] = some [0x2b] := by
  intro setting b
  have hgone : setting.outputPath (.ofString "src/m.zolang") = .ok ⟨0, ["build", "m.out"]⟩ := by
    decide +kernel
  have hmade : setting.outputPath (.ofString "src/a.zolang") = .ok ⟨0, ["build", "a.out"]⟩ := by
    decide +kernel
  obtain ⟨hresults, hfiles, habort⟩ : b.results
        = [⟨"src/m.zolang", none, none, some (.refused ⟨.notFound, "src/m.zolang"⟩)⟩,
          ⟨"src/a.zolang", some (fileContext [] []), some "-", none⟩] ∧
      b.files = leftFiles.insert ["build", "a.out"] (.file (Text.Utf8.encode "-")) ∧
      b.abort = none := by
    simp [b, buildAll, buildFile_leftFiles_gone, buildFile_leftFiles_made, writeResult, hmade,
      writeText_leftFiles, Logged.pure_def]
  obtain ⟨-, -, hchanged, hfailed⟩ := buildAll_outputs ⟨[], some "t"⟩ setting leftFiles _ habort
  dsimp only [b] at hresults hfiles
  rw [hresults, List.forall_mem_cons] at hfailed
  rw [hfiles] at hchanged hfailed
  refine ⟨habort, hchanged ["build", "a.out"] (by decide +kernel), ?_⟩
  obtain ⟨-, hplace⟩ := hfailed.1 rfl
  dsimp only [b]
  rw [hfiles]
  refine (hplace _ hgone ?_).trans (by decide +kernel)
  -- one file has failed, and the other goes elsewhere
  rintro other hother ⟨hfailure, p, hp, hplace⟩
  rcases List.mem_pair.mp hother with rfl | rfl
  · cases hfailure
  · cases hmade.symm.trans hp
    exact absurd hplace (by decide)

end ModelScript
