import ModelScript.CommandLine.Run
import ModelScript.Proofs.Build.Steps
import ModelScript.Proofs.Template.Slots

/-!
# Whole runs

A run builds the settings of a configuration one after the other.  Where templates come to nothing
but texts and template errors, no file ends it that cannot be read, compiled or rendered.  What can
end it is an output: one that has no path, or that cannot be written there.  As long as all outputs
can be placed, every source of every setting is attempted, all that is wrong with them is reported,
and every output is written.

* `buildFile_ne_error`: what is done to a file before its output is written cannot end a run.
* `BuildSetting.build_runs`: the build of a setting goes step by step, as `Pass.Runs` says.
* `CommandLine.runBuild_collects`: what becomes of a whole run.
-/

namespace ModelScript

/-! ## The sources of a setting -/

namespace BuildSetting

/-- How a setting treats each of its files. -/
def pass (setting : BuildSetting) : Pass :=
  ⟨setting.separators, some setting.templatePath.toString⟩

/-- The sources that a setting builds, each with its name. -/
def sources (setting : BuildSetting) (files : FileTree) : List (String × Source) :=
  (setting.sourceFiles files).map fun p => (p.toString, .path p)

theorem isNameable_of_mem_sources {setting : BuildSetting} {files : FileTree}
    (hfiles : files.Plain) : ∀ source ∈ setting.sources files, source.2.IsNameable :=
  List.forall_mem_map.mpr fun _ hp => hfiles.entriesBelow hp

end BuildSetting

/-! ## Reports -/

theorem infix_intercalate {α : Type} (joiner : List α) {part : List α} {parts : List (List α)}
    (h : part ∈ parts) : part <:+: joiner.intercalate parts := by
  induction parts with
  | nil => cases h
  | cons first rest ih =>
    cases rest with
    | nil => rw [List.mem_singleton.mp h, List.intercalate_singleton]
    | cons next rest =>
      rw [List.intercalate_cons_cons]
      rcases List.mem_cons.mp h with rfl | hrest
      · exact ((List.prefix_append part joiner).trans (List.prefix_append _ _)).isInfix
      · exact (ih hrest).trans (List.suffix_append _ _).isInfix

section Runs

variable [TemplateEngine]

namespace CommandLine

/-- What is wrong with a file stands in the report on all of them. -/
theorem message_infix_reportOf {results : List FileResult} {r : FileResult} (hr : r ∈ results)
    {message : String} (h : r.message? = some message) :
    ("Error: " ++ message).toList <:+: (reportOf results).toList := by
  unfold reportOf report
  rw [String.toList_intercalate]
  have hmessage : message ∈ results.filterMap FileResult.message? :=
    List.mem_filterMap.mpr ⟨r, hr, h⟩
  exact infix_intercalate _ (List.mem_map_of_mem (List.mem_map_of_mem hmessage))

/-- A report is told. -/
theorem trouble_infix_told {o : Outcome} {report : String} (h : Notice.trouble report ∈ o.notices)
    (verbose : Bool) : report.toList <:+: (o.told verbose).toList := by
  have hline : report ++ "\n" ∈ (o.notices.filterMap (Notice.text? verbose)).map (· ++ "\n") :=
    List.mem_map_of_mem (List.mem_filterMap.mpr ⟨_, h, rfl⟩)
  obtain ⟨before, after, hlines⟩ := List.append_of_mem hline
  unfold Outcome.told
  rw [String.toList_join, hlines, List.flatMap_append, List.flatMap_cons, String.toList_append]
  exact ⟨before.flatMap String.toList, "\n".toList ++ after.flatMap String.toList, by simp⟩

theorem message?_isSome {r : FileResult} {f : Failure} (h : r.failure = some f) :
    ∃ message, r.message? = some message := by
  unfold FileResult.message?
  rw [h]
  cases f <;> exact ⟨_, rfl⟩

theorem anyFailed_of_mem {results : List FileResult} {r : FileResult} (hr : r ∈ results)
    {f : Failure} (h : r.failure = some f) : anyFailed results = true :=
  (anyFailed_iff results).mpr ⟨r, hr, by simp [h]⟩

end CommandLine

variable [DepthLimits]

/-! ## One file -/

/-- Where templates come to nothing but texts and template errors, a file that can be asked for ends
no build. -/
theorem buildFile_ne_error (hengine : TemplateEngine.OnlyTemplateErrors) {pass : Pass}
    {files : FileTree} {source : String × Source} (h : source.2.IsNameable) (abort : Abort) :
    (buildFile files pass source.1 source.2).outcome ≠ .error abort := by
  intro habort
  obtain hnameable | ⟨e, hrendering, hcaught⟩ := not_caught_of_buildFile habort
  · exact hnameable h
  · unfold Pass.rendering? at hrendering
    simp only [Option.bind_eq_bind, Option.bind_eq_some_iff] at hrendering
    obtain ⟨context, hcontext, directory, -, hrender⟩ := hrendering
    obtain ⟨body, rfl⟩ := Source.context?_eq_some hcontext
    have hnamed := fileContext_named pass.separators body
    exact hcaught (Value.caught_render hengine files directory hnamed e (Option.some.inj hrender))

/-- What becomes of the sources of a setting. -/
theorem BuildSetting.build_runs (setting : BuildSetting) (files : FileTree) :
    setting.pass.Runs setting files (setting.sources files) (setting.build files).results
      (setting.build files).files (setting.build files).abort :=
  buildAll_runs setting.pass setting files (setting.sources files)

/-! ## All settings -/

namespace CommandLine

/-- The build of a setting: the files that it found, and what became of it. -/
structure Attempt where
  setting : BuildSetting
  found : FileTree
  built : Built

def Attempt.texts (a : Attempt) : List (Path × String) :=
  a.built.results.filterMap (FileResult.placed? a.setting)

/-- The builds of some settings, each on what the one in front of it leaves, up to the first that is
ended. -/
def attempts (files : FileTree) : List BuildSetting → List Attempt
  | [] => []
  | setting :: rest =>
    let built := setting.build files
    ⟨setting, files, built⟩ :: (if built.abort.isSome then [] else attempts built.files rest)

/-- What an attempt has found, and what has become of it. -/
structure Attempt.Made (a : Attempt) : Prop where
  plain : a.found.Plain
  runs : a.setting.pass.Runs a.setting a.found (a.setting.sources a.found) a.built.results
    a.built.files a.built.abort

theorem attempts_made {files : FileTree} (hfiles : files.Plain) (settings : List BuildSetting) :
    ∀ a ∈ attempts files settings, a.Made := by
  induction settings generalizing files with
  | nil => exact fun a ha => nomatch ha
  | cons setting rest ih =>
    have hbuilt := setting.build_runs files
    rw [attempts]
    refine List.forall_mem_cons.mpr ⟨⟨hfiles, hbuilt⟩, ?_⟩
    split
    · exact fun a ha => nomatch ha
    · exact ih (hbuilt.plain hfiles)

/-- Only an output without a place ends an attempt. -/
theorem Attempt.Made.exists_unplaced (hengine : TemplateEngine.OnlyTemplateErrors) {a : Attempt}
    (h : a.Made) {abort : Abort} (habort : a.built.abort = some abort) :
    ∃ r ∈ a.built.results, r.Unplaced a.setting a.built.files abort := by
  have hruns := h.runs
  rw [habort] at hruns
  obtain hunplaced | ⟨source, hsource, houtcome⟩ := hruns.exists_stop
  · exact hunplaced
  · have hnameable := BuildSetting.isNameable_of_mem_sources h.plain source hsource
    exact absurd houtcome (buildFile_ne_error hengine hnameable abort)

/-- A run is ended by one of its builds. -/
theorem buildSettings_ended {files : FileTree} {settings : List BuildSetting} {abort : Abort}
    (h : (buildSettings files settings).ending = .error abort) :
    ∃ a ∈ attempts files settings, a.built.abort = some abort := by
  induction settings generalizing files with
  | nil => cases h
  | cons setting rest ih =>
    rw [buildSettings] at h
    rw [attempts]
    cases habort : (setting.build files).abort with
    | some other =>
      simp only [habort, Except.error.injEq] at h
      exact ⟨_, List.mem_cons_self, h ▸ habort⟩
    | none =>
      simp only [habort] at h
      cases hothers : (buildSettings (setting.build files).files rest).ending with
      | ok status =>
        rw [hothers] at h
        cases h
      | error other =>
        rw [hothers] at h
        cases h
        obtain ⟨a, ha, heq⟩ := ih hothers
        exact ⟨a, by simp [ha], heq⟩

/-- What a run comes to that is not ended. -/
structure Completes (files : FileTree) (settings : List BuildSetting) (runs : List Attempt)
    (status : Nat) (o : Outcome) : Prop where
  settings_eq : runs.map Attempt.setting = settings
  unended : ∀ a ∈ runs, a.built.abort = none
  status_eq : status = if runs.any fun a => anyFailed a.built.results then 1 else 0
  written : writeAll files (runs.flatMap Attempt.texts) = .ok o.files
  reported : ∀ a ∈ runs, anyFailed a.built.results = true →
    Notice.trouble (reportOf a.built.results) ∈ o.notices

theorem buildSettings_completes {files : FileTree} (hfiles : files.Plain)
    {settings : List BuildSetting} {status : Nat}
    (h : (buildSettings files settings).ending = .ok status) :
    Completes files settings (attempts files settings) status (buildSettings files settings) := by
  induction settings generalizing files status with
  | nil =>
    cases h
    exact ⟨rfl, fun a ha => (nomatch ha), rfl, rfl, fun a ha => nomatch ha⟩
  | cons setting rest ih =>
    have hbuilt := setting.build_runs files
    rw [buildSettings] at h ⊢
    rw [attempts]
    cases habort : (setting.build files).abort with
    | some other => simp [habort] at h
    | none =>
      simp only [habort] at h ⊢
      cases hothers : (buildSettings (setting.build files).files rest).ending with
      | error other =>
        rw [hothers] at h
        cases h
      | ok others =>
        rw [hothers] at h
        cases h
        obtain ⟨hsettings, hunended, hstatus, hwritten, hreported⟩ :=
          ih (hbuilt.plain hfiles) hothers
        rw [habort] at hbuilt
        refine ⟨?_, ?_, ?_, ?_, ?_⟩
        · simp [hsettings]
        · exact List.forall_mem_cons.mpr ⟨habort, hunended⟩
        · by_cases hfailed : anyFailed (setting.build files).results = true
          · simp [hfailed]
          · simp [hfailed, hstatus]
        · simp only [Option.isSome_none, Bool.false_eq_true, if_false, List.flatMap_cons]
          rw [writeAll_append]
          unfold Attempt.texts
          rw [hbuilt.writeAll_eq]
          exact hwritten
        · refine List.forall_mem_cons.mpr ⟨fun hfailed => ?_, fun a ha hfailed => ?_⟩
          · simp only at hfailed
            simp [hfailed]
          · exact List.mem_append_right _ (hreported a ha hfailed)

/-! ## Whole runs -/

/-- Whether a build has gone through all of its sources, and a run has told what is wrong. -/
structure Attempt.Collected (o : Outcome) (a : Attempt) : Prop where
  /-- The sources are built one after the other, and no output lacks a place. -/
  runs : a.setting.pass.Runs a.setting a.found (a.setting.sources a.found) a.built.results
    a.built.files none
  /-- Every source is attempted, in order. -/
  attempted : a.built.results.map FileResult.file
    = (a.setting.sourceFiles a.found).map Path.toString
  /-- Each has an output or a failure. -/
  decided : ∀ r ∈ a.built.results, r.output.isSome = !r.failure.isSome
  /-- All that is wrong is told. -/
  reported : ∀ r ∈ a.built.results, ∀ f, r.failure = some f → ∃ message,
    r.message? = some message ∧
      ∀ verbose, ("Error: " ++ message).toList <:+: (o.told verbose).toList
  /-- Every output has a path to be written to. -/
  placed : ∀ r ∈ a.built.results, ∀ text, r.output = some text →
    ∃ p, a.setting.outputPath (.ofString r.file) = .ok p ∧ (p, text) ∈ a.texts

theorem Attempt.collected {o : Outcome} {a : Attempt}
    (h : a.setting.pass.Runs a.setting a.found (a.setting.sources a.found) a.built.results
      a.built.files none)
    (hreported : anyFailed a.built.results = true →
      Notice.trouble (reportOf a.built.results) ∈ o.notices) : a.Collected o := by
  refine ⟨h, ?_, fun r hr => ?_, fun r hr f hf => ?_, fun r hr text htext => ?_⟩
  · rw [h.names_eq, BuildSetting.sources, List.map_map]
    rfl
  · rw [h.decided r hr]
    simp [BuildSetting.pass]
  · obtain ⟨message, hmessage⟩ := message?_isSome hf
    have htrouble := hreported (anyFailed_of_mem hr hf)
    exact ⟨message, hmessage, fun verbose =>
      (message_infix_reportOf hr hmessage).trans (trouble_infix_told htrouble verbose)⟩
  · have hsome : (r.placed? a.setting).isSome = true := by
      rw [← h.placed r hr, htext]
      rfl
    obtain ⟨⟨p, text'⟩, hq⟩ := Option.isSome_iff_exists.mp hsome
    obtain ⟨houtput, hpath⟩ := FileResult.placed?_eq_some hq
    obtain rfl := Option.some.inj (htext.symm.trans houtput)
    exact ⟨p, hpath, List.mem_filterMap.mpr ⟨r, hr, hq⟩⟩

variable [ConfigSchema]

theorem runBuild_eq {files : FileTree} {config : String} {settings : List BuildSetting}
    (hload : loadConfig files (.ofString config) = .ok settings) :
    runBuild files (some config) = { buildSettings files settings with
      notices := .event (.loaded settings.length (Path.ofString config).toString)
        :: (buildSettings files settings).notices } := by
  unfold runBuild
  dsimp only
  rw [hload]

/-- A run whose templates come to nothing but texts and template errors, and that loads its
configuration, is ended by nothing but an output that has no path or cannot be written.  Where none
does, all of its settings are built and collect what becomes of their sources.  The status is 1 if a
file has failed and 0 if none has, and the place of every output holds it or a later one that goes
there too. -/
theorem runBuild_collects (hengine : TemplateEngine.OnlyTemplateErrors) (files : FileTree)
    (config : String) (settings : List BuildSetting) (hfiles : files.Plain)
    (hload : loadConfig files (.ofString config) = .ok settings) :
    let o := runBuild files (some config)
    let runs := attempts files settings
    (∀ abort, o.ending = .error abort →
      ∃ a ∈ runs, ∃ r ∈ a.built.results, r.Unplaced a.setting a.built.files abort) ∧
    ∀ status, o.ending = .ok status →
      runs.map Attempt.setting = settings ∧ (∀ a ∈ runs, a.Collected o) ∧
      (status = 1 ∧ (∃ a ∈ runs, ∃ r ∈ a.built.results, r.failure.isSome = true) ∨
        status = 0 ∧ ∀ a ∈ runs, ∀ r ∈ a.built.results, r.failure = none) ∧
      ∀ p text later, (p, text) :: later <:+ runs.flatMap Attempt.texts →
        o.files.HoldsOneOf p ((p, text) :: later) := by
  intro o runs
  have ho : o = _ := runBuild_eq hload
  have hmade := attempts_made hfiles settings
  constructor
  · intro abort habort
    rw [ho] at habort
    obtain ⟨a, ha, hended⟩ := buildSettings_ended habort
    exact ⟨a, ha, (hmade a ha).exists_unplaced hengine hended⟩
  · intro status hstatus
    rw [ho] at hstatus
    obtain ⟨hsettings, hunended, hstatus, hwritten, hreported⟩ :=
      buildSettings_completes hfiles hstatus
    refine ⟨hsettings, fun a ha => ?_, ?_, fun p text later hsuffix => ?_⟩
    · refine Attempt.collected (hunended a ha ▸ (hmade a ha).runs) fun hfailed => ?_
      rw [ho]
      exact List.mem_cons_of_mem _ (hreported a ha hfailed)
    · by_cases hfailed : runs.any fun a => anyFailed a.built.results
      · obtain ⟨a, ha, hany⟩ := List.any_eq_true.mp hfailed
        exact Or.inl ⟨by simp [hstatus, runs, hfailed], a, ha, (anyFailed_iff _).mp hany⟩
      · refine Or.inr ⟨by simp [hstatus, runs, hfailed], fun a ha r hr => ?_⟩
        cases hr' : r.failure with
        | none => rfl
        | some f =>
          exact absurd (List.any_eq_true.mpr ⟨a, ha, anyFailed_of_mem hr hr'⟩) hfailed
    · rw [ho]
      exact writeAll_holds hwritten hsuffix

end CommandLine

end Runs

/-! ## A run that is ended -/

namespace CommandLine

/-- Two sources without text, and a directory where the output of the first would be. -/
def blockedFiles : FileTree := ⟨[], [
  (["zolang.json"], .file (Text.Utf8.encode ("\x7b\"buildSettings\": [\x7b\"sourcePath\": \"src\", "
    ++ "\"templatePath\": \"t\", \"buildPath\": \"build\", \"fileExtension\": \"out\"\x7d]\x7d"))),
  (["src"], .directory),
  (["src", "a.zolang"], .file []),
  (["src", "b.zolang"], .file []),
  (["t"], .directory),
  (["t", "codeBlock.j2"], .file (Text.Utf8.encode "-")),
  (["build"], .directory),
  (["build", "a.out"], .directory)]⟩

/-- The setting that is configured there. -/
def blockedSetting : BuildSetting :=
  ⟨⟨0, ["src"]⟩, ⟨0, ["t"]⟩, ⟨0, ["build"]⟩, "out", [("block", "\n")]⟩

theorem blockedFiles_plain : blockedFiles.Plain := ⟨by decide, by decide⟩

theorem loadConfig_blockedFiles :
    loadConfig blockedFiles (.ofString "zolang.json") = .ok [blockedSetting] := by
  decide +kernel

theorem sourceFiles_blockedFiles : blockedSetting.sourceFiles blockedFiles
    = [⟨0, ["src", "a.zolang"]⟩, ⟨0, ["src", "b.zolang"]⟩] := by
  have hlocate : blockedFiles.locate blockedSetting.sourcePath = .ok ["src"] := by decide
  have hdirectory : blockedFiles.isDirectory blockedSetting.sourcePath = true := by decide
  exact FileTree.entriesBelow_eq_of_pairwise hlocate hdirectory (by decide +kernel)
    (by decide +kernel)

theorem readFile_nil (file : String) : (readFile file []).outcome = .ok [] := by
  have htokens : Reading.tokens file 1 [] = ⟨[.tokenized file 0], .ok []⟩ := rfl
  have hstatements : (Inner.atDepth file depthLimit).statements ⟨[], 1⟩ = pure ([], 1) :=
    Inner.lines_of_blank _ _ 0 rfl
  have hparse : parseWithin depthLimit file ⟨[], 1⟩ = ⟨[.parsed file 0], .ok ([], 1)⟩ := by
    unfold parseWithin
    rw [hstatements]
    rfl
  unfold readFile readWithin
  rw [htokens, Logged.bind_def, Logged.andThen_ok, hparse]
  rfl

theorem compile_nil (separators : Separators) (file : String) :
    (compile separators file []).outcome = .ok (fileContext separators []) := by
  unfold compile
  dsimp only
  rw [readFile_nil]
  rfl

/-- A text without statements has the output that its template gives. -/
theorem buildFile_nil {files : FileTree} {pass : Pass} {directory output : String} (file : String)
    {source : Source} (hread : source.read files = .ok [])
    (hpass : pass.templates = some directory)
    (hrender : (fileContext pass.separators []).render (TemplateEngine.templates files directory)
      = .ok output) :
    (buildFile files pass file source).outcome
      = .ok ⟨file, some (fileContext pass.separators []), some output, none⟩ := by
  unfold buildFile
  rw [hread]
  simp only [compile_nil, renderFile, hpass, hrender]
  rfl

theorem buildFile_blockedFiles (file : String) {source : Source}
    (h : source.read blockedFiles = .ok []) :
    (buildFile blockedFiles ⟨blockedSetting.separators, some "t"⟩ file source).outcome
      = .ok ⟨file, some (fileContext blockedSetting.separators []), some "-", none⟩ := by
  refine buildFile_nil file h rfl ?_
  unfold fileContext bodyContext Statement.node Value.render
  rfl

/-- The first output has no place, so the run is ended in front of the second source. -/
theorem buildSettings_blockedFiles :
    (buildSettings blockedFiles [blockedSetting]).ending
        = .error (.refused ⟨.isDirectory, "build/a.out"⟩) ∧
      (buildSettings blockedFiles [blockedSetting]).files = blockedFiles := by
  have hread : (Source.path ⟨0, ["src", "a.zolang"]⟩).read blockedFiles = .ok [] := rfl
  have hfirst := buildFile_blockedFiles "src/a.zolang" hread
  have hunplaced : FileResult.Unplaced blockedSetting blockedFiles
      (.refused ⟨.isDirectory, "build/a.out"⟩)
      ⟨"src/a.zolang", some (fileContext blockedSetting.separators []), some "-", none⟩ :=
    ⟨"-", rfl, Or.inr ⟨⟨0, ["build", "a.out"]⟩, rfl, rfl⟩⟩
  obtain ⟨-, hfiles, habort⟩ := buildAll_unplaced hfirst hunplaced
    [("src/b.zolang", .path ⟨0, ["src", "b.zolang"]⟩)]
  have hsources : blockedSetting.sources blockedFiles
      = [("src/a.zolang", .path ⟨0, ["src", "a.zolang"]⟩),
        ("src/b.zolang", .path ⟨0, ["src", "b.zolang"]⟩)] := by
    rw [BuildSetting.sources, sourceFiles_blockedFiles]
    rfl
  have htemplates : blockedSetting.templatePath.toString = "t" := rfl
  rw [← hsources, ← htemplates] at hfiles habort
  have hbuild : (blockedSetting.build blockedFiles).abort
      = some (.refused ⟨.isDirectory, "build/a.out"⟩) := habort
  rw [buildSettings]
  simp only [hbuild]
  exact ⟨trivial, hfiles⟩

theorem runBuild_blockedFiles :
    (runBuild blockedFiles (some "zolang.json")).ending
        = .error (.refused ⟨.isDirectory, "build/a.out"⟩) ∧
      (runBuild blockedFiles (some "zolang.json")).files = blockedFiles := by
  rw [runBuild_eq loadConfig_blockedFiles]
  exact buildSettings_blockedFiles

/-- What ends the run is an output without a place. -/
theorem runBuild_collects_blockedFiles :
    ∃ a ∈ attempts blockedFiles [blockedSetting], ∃ r ∈ a.built.results,
      r.Unplaced a.setting a.built.files (.refused ⟨.isDirectory, "build/a.out"⟩) :=
  (runBuild_collects onlyTemplateErrors blockedFiles "zolang.json" [blockedSetting] blockedFiles_plain
    loadConfig_blockedFiles).1 _ runBuild_blockedFiles.1

/-- The output of the second source could have been written. -/
theorem runBuild_stops_at_output :
    loadConfig blockedFiles (.ofString "zolang.json") = .ok [blockedSetting] ∧
      blockedSetting.sourceFiles blockedFiles
        = [⟨0, ["src", "a.zolang"]⟩, ⟨0, ["src", "b.zolang"]⟩] ∧
      (∃ r, (buildFile blockedFiles ⟨blockedSetting.separators, some "t"⟩ "src/b.zolang"
        (.path ⟨0, ["src", "b.zolang"]⟩)).outcome = .ok r ∧ r.output = some "-") ∧
      blockedSetting.outputPath (.ofString "src/b.zolang") = .ok ⟨0, ["build", "b.out"]⟩ ∧
      (∃ files, writeText blockedFiles ⟨0, ["build", "b.out"]⟩ "-" = .ok files) ∧
      (runBuild blockedFiles (some "zolang.json")).ending
        = .error (.refused ⟨.isDirectory, "build/a.out"⟩) ∧
      (runBuild blockedFiles (some "zolang.json")).files = blockedFiles := by
  refine ⟨loadConfig_blockedFiles, sourceFiles_blockedFiles, ?_, rfl, ⟨_, rfl⟩,
    runBuild_blockedFiles⟩
  exact ⟨_, buildFile_blockedFiles "src/b.zolang" rfl, rfl⟩

end CommandLine

end ModelScript
