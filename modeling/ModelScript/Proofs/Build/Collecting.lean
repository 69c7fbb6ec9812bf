import ModelScript.Defaults
import ModelScript.Proofs.Build.OneFile

/-!
# Builds that collect

A build goes through its files one after the other.  What is wrong with one of them is noted in its
result, and the build goes on; only a source whose path cannot even be asked for ends it.

* `buildAll_append`: a build of two lists of files is the build of the first, followed by that of
  the second on what the first leaves behind.
* `buildAll_unrendered`: where nothing is rendered there is nothing to write, so a build leaves the
  tree as it is and each of its results is that of a build of one file.
-/

namespace ModelScript

section Builds

variable [DepthLimits] [TemplateEngine]

/-! ## All files -/

/-- A build followed by what is built after it. -/
def Built.andThen (b more : Built) : Built :=
  ⟨b.results ++ more.results, b.events ++ more.events, more.files, more.abort⟩

def buildOne (pass : Pass) (setting : Option BuildSetting) (files : FileTree)
    (source : String × Source) : Built :=
  buildAll pass setting files [source]

section

variable {pass : Pass} {setting : Option BuildSetting} {files : FileTree}

theorem buildAll_cons (source : String × Source) (rest : List (String × Source)) :
    buildAll pass setting files (source :: rest) =
      match (buildOne pass setting files source).abort with
      | some _ => buildOne pass setting files source
      | none => (buildOne pass setting files source).andThen
          (buildAll pass setting (buildOne pass setting files source).files rest) := by
  obtain ⟨file, source⟩ := source
  unfold buildOne
  simp only [buildAll]
  cases (buildFile files pass file source).outcome with
  | error a => rfl
  | ok r =>
    dsimp only
    cases (writeResult setting files r).outcome with
    | error a => rfl
    | ok files' => simp [Built.andThen]

/-- A build of some files goes on with those behind them, on what it leaves, unless it is ended. -/
theorem buildAll_append (xs ys : List (String × Source)) :
    buildAll pass setting files (xs ++ ys) =
      match (buildAll pass setting files xs).abort with
      | some _ => buildAll pass setting files xs
      | none => (buildAll pass setting files xs).andThen
          (buildAll pass setting (buildAll pass setting files xs).files ys) := by
  induction xs generalizing files with
  | nil => rfl
  | cons x xs ih =>
    rw [List.cons_append, buildAll_cons, buildAll_cons x xs]
    cases hone : (buildOne pass setting files x).abort with
    | some a => simp [hone]
    | none =>
      dsimp only
      rw [ih]
      cases hxs : (buildAll pass setting (buildOne pass setting files x).files xs).abort <;>
        simp [Built.andThen, hxs, List.append_assoc]

end

/-! ## Files that are not rendered -/

/-- What becomes of a file that is built alone and not rendered. -/
structure FileResult.Collected (separators : Separators) (files : FileTree)
    (source : String × Source) (r : FileResult) : Prop where
  alone : ∀ setting, (buildAll ⟨separators, none⟩ setting files [source]).results = [r]
  named : r.file = source.1
  unrendered : r.output = none
  compiled : r.context = source.2.context? separators files source.1
  decided : r.context.isSome = !r.failure.isSome

/-- A source that can be asked for is collected. -/
theorem buildOne_unrendered (separators : Separators) (files : FileTree)
    (source : String × Source) (h : source.2.IsNameable) :
    ∃ r events, r.Collected separators files source ∧
      ∀ setting, buildOne ⟨separators, none⟩ setting files source = ⟨[r], events, files, none⟩ := by
  obtain ⟨r, hr, hrendered⟩ | ⟨-, hcause⟩ :=
    buildFile_cases ⟨separators, none⟩ files source
  · have houtput : r.output = none := by simp [hrendered.output_eq, Pass.output?, Pass.rendering?]
    have hone (setting : Option BuildSetting) : buildOne ⟨separators, none⟩ setting files source
        = ⟨[r], (buildFile files ⟨separators, none⟩ source.1 source.2).events, files, none⟩ := by
      unfold buildOne
      simp only [buildAll, hr]
      cases setting <;> simp [writeResult, houtput, Logged.pure_def]
    have hdecided : r.context.isSome = !r.failure.isSome := by
      have hiff := hrendered.failure_eq_none_iff
      simp only [Pass.Succeeds, Pass.rendering?, ← hrendered.context_eq] at hiff
      rw [Bool.eq_iff_iff]
      simp [hiff]
    exact ⟨r, _, ⟨fun setting => congrArg Built.results (hone setting), hrendered.named, houtput,
      hrendered.context_eq, hdecided⟩, hone⟩
  · rcases hcause with hnameable | ⟨e, he, -⟩
    · exact absurd h hnameable
    · simp [Pass.rendering?] at he

/-- One that cannot be asked for ends the build. -/
theorem buildOne_of_not_isNameable (pass : Pass) (setting : Option BuildSetting) (files : FileTree)
    {source : String × Source} (h : ¬ source.2.IsNameable) :
    ∃ events abort, buildOne pass setting files source = ⟨[], events, files, some abort⟩ := by
  obtain ⟨abort, habort⟩ := buildFile_of_not_isNameable pass files h
  refine ⟨(buildFile files pass source.1 source.2).events, abort, ?_⟩
  unfold buildOne
  simp only [buildAll, habort]

/-- A build that renders nothing goes through its files up to the first that cannot be asked for,
and leaves the tree as it is. -/
theorem buildAll_unrendered (separators : Separators) (setting : Option BuildSetting)
    (files : FileTree) (sources : List (String × Source)) :
    let build := buildAll ⟨separators, none⟩ setting files sources
    (build.abort = none ↔ ∀ source ∈ sources, source.2.IsNameable) ∧ build.files = files ∧
      List.Forall₂ (FileResult.Collected separators files)
        (sources.takeWhile (·.2.IsNameable)) build.results := by
  induction sources with
  | nil => exact ⟨by simp [buildAll], rfl, .nil⟩
  | cons source rest ih =>
    obtain ⟨habort, hfiles, hresults⟩ := ih
    dsimp only
    rw [buildAll_cons]
    by_cases h : source.2.IsNameable
    · obtain ⟨r, events, hr, hone⟩ := buildOne_unrendered separators files source h
      rw [hone, List.takeWhile_cons_of_pos (by simpa using h)]
      exact ⟨by simp [Built.andThen, habort, h], hfiles, .cons hr hresults⟩
    · obtain ⟨events, abort, hone⟩ := buildOne_of_not_isNameable ⟨separators, none⟩ setting files h
      rw [hone, List.takeWhile_cons_of_neg (by simpa using h)]
      exact ⟨by simp [h], rfl, .nil⟩

omit [DepthLimits] in
theorem anyFailed_iff (results : List FileResult) :
    anyFailed results = true ↔ ∃ r ∈ results, r.failure.isSome = true := by
  unfold anyFailed FileResult.succeeded
  simp [List.any_eq_true]

/-- A build that renders nothing ends by itself exactly for files that can be asked for, whatever
they are, and does not touch the tree.  Up to the first file that cannot be asked for it has one
result for each, in order, which is the only result of building that file alone and has the context
of its text, or a failure if there is none.  The build has failed if and only if one of its files
has, and a list of files is built by building its parts one after the other. -/
theorem buildAll_collects (separators : Separators) (setting : Option BuildSetting)
    (files : FileTree) (sources : List (String × Source)) :
    let build := buildAll ⟨separators, none⟩ setting files
    ((build sources).abort = none ↔ ∀ source ∈ sources, source.2.IsNameable) ∧
      (build sources).files = files ∧
      List.Forall₂ (FileResult.Collected separators files)
        (sources.takeWhile (·.2.IsNameable)) (build sources).results ∧
      (anyFailed (build sources).results = true ↔
        ∃ r ∈ (build sources).results, r.failure.isSome = true) ∧
      ∀ xs ys, sources = xs ++ ys → (∀ source ∈ xs, source.2.IsNameable) →
        (build sources).results = (build xs).results ++ (build ys).results ∧
          (build sources).events = (build xs).events ++ (build ys).events := by
  intro build
  obtain ⟨habort, hfiles, hresults⟩ := buildAll_unrendered separators setting files sources
  refine ⟨habort, hfiles, hresults, anyFailed_iff _, ?_⟩
  rintro xs ys rfl hxs
  -- the first part leaves the tree as it is, so the second is built on the same files
  obtain ⟨hxabort, hxfiles, -⟩ := buildAll_unrendered separators setting files xs
  dsimp only [build]
  rw [buildAll_append, hxabort.mpr hxs, hxfiles]
  exact ⟨rfl, rfl⟩

end Builds

/-! ## Sources that cannot be read -/

/-- A text, a path where nothing is, a directory, and a file that is no UTF-8. -/
theorem buildAll_collects_unreadable :
    let files : FileTree := ⟨[], [(["d"], .directory), (["x"], .file [0xff])]⟩
    let sources : List (String × Source) :=
      [("a", .text ['1']), ("m", .path ⟨0, ["m"]⟩), ("d", .path ⟨0, ["d"]⟩),
        ("x", .path ⟨0, ["x"]⟩)]
    let build := buildAll ⟨[], none⟩ none files sources
    build.abort = none ∧ build.results.length = 4 := by
  intro files sources build
  obtain ⟨habort, -, hresults, -⟩ := buildAll_collects [] none files sources
  have hnameable : ∀ source ∈ sources, source.2.IsNameable := by decide
  rw [List.takeWhile_eq_self_iff.mpr (by simpa using hnameable)] at hresults
  exact ⟨habort.mpr hnameable, hresults.length_eq.symm⟩

/-- Half of a surrogate pair as a path ends the build.  A text in front of it has its result, and one
behind it has none, although it has one when it is built alone. -/
theorem buildAll_stops_at_unencodable :
    let half : UnencodablePath := ⟨[0xD800], ⟨0, 0xD800, []⟩, rfl⟩
    let build := buildAll ⟨[], none⟩ none ⟨[], []⟩
    let b := build [("a", .text []), ("f", .unencodable half), ("b", .text [])]
    b.abort = some (.path (.unencodable half.fault)) ∧
      half.fault.message
        = "'utf-8' codec can't encode character '\\ud800' in position 0: surrogates not allowed" ∧
      b.results.map FileResult.file = ["a"] ∧
      (build [("b", .text [])]).results.map FileResult.file = ["b"] := by
  intro half build b
  obtain ⟨a, eventsA, ha, hbuiltA⟩ :=
    buildOne_unrendered [] ⟨[], []⟩ ("a", .text []) trivial
  obtain ⟨c, eventsC, hc, hbuiltC⟩ :=
    buildOne_unrendered [] ⟨[], []⟩ ("b", .text []) trivial
  have hhalf : buildOne ⟨[], none⟩ none ⟨[], []⟩ ("f", .unencodable half)
      = ⟨[], [], ⟨[], []⟩, some (.path (.unencodable half.fault))⟩ := rfl
  refine ⟨?_, by decide, ?_, ?_⟩
  · simp [b, build, buildAll_cons, hbuiltA, hhalf, Built.andThen]
  · simp [b, build, buildAll_cons, hbuiltA, hhalf, Built.andThen, ha.named]
  · have halone : (build [("b", .text [])]).results = [c] := hc.alone none
    rw [halone]
    exact congrArg (fun name => [name]) hc.named

end ModelScript
