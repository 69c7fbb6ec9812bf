import ModelScript.Proofs.Build.Collecting
import ModelScript.Proofs.Files.Sound
import ModelScript.Proofs.Files.Plain

/-!
# Builds step by step

A build with a setting renders its sources one after the other, each on the files that those in
front of it leave, and writes each output at once (`Pass.Runs`, `buildAll_runs`).  So what comes of
all outputs is what writing them one after the other comes to (`Pass.Runs.writeAll_eq`), and a build
that is ended has stopped at a file, or at an output that has no path or cannot be written there
(`Pass.Runs.exists_stop`).
-/

namespace ModelScript

variable [TemplateEngine]

/-! ## Outputs -/

namespace FileResult

/-- Why an output cannot be placed: it has no path, or it cannot be written there. -/
def Unplaced (setting : BuildSetting) (files : FileTree) (abort : Abort) (r : FileResult) : Prop :=
  ∃ text, r.output = some text ∧
    ((∃ e, setting.outputPath (.ofString r.file) = .error e ∧ abort = .path e) ∨
      ∃ p, setting.outputPath (.ofString r.file) = .ok p ∧ writeText files p text = .error abort)

def placed? (setting : BuildSetting) (r : FileResult) : Option (Path × String) :=
  match r.output, setting.outputPath (.ofString r.file) with
  | some text, .ok p => some (p, text)
  | _, _ => none

theorem placed?_eq_some {setting : BuildSetting} {r : FileResult} {q : Path × String}
    (h : r.placed? setting = some q) :
    r.output = some q.2 ∧ setting.outputPath (.ofString r.file) = .ok q.1 := by
  unfold placed? at h
  split at h
  · next text p houtput hpath =>
    cases h
    exact ⟨houtput, hpath⟩
  · cases h

end FileResult

/-- A result is written, if there is anything to write, or it has an output without a place. -/
theorem writeResult_outcome (setting : BuildSetting) (files : FileTree) (r : FileResult) :
    (∃ a, (writeResult (some setting) files r).outcome = .error a ∧ r.Unplaced setting files a) ∨
      ∃ files', (writeResult (some setting) files r).outcome = .ok files' ∧
        writeAll files (r.placed? setting).toList = .ok files' ∧
        r.output.isSome = (r.placed? setting).isSome := by
  unfold writeResult FileResult.placed? FileResult.Unplaced
  cases houtput : r.output with
  | none => exact Or.inr ⟨files, rfl, rfl, rfl⟩
  | some text =>
    dsimp only
    cases hpath : setting.outputPath (.ofString r.file) with
    | error e => exact Or.inl ⟨_, rfl, text, rfl, Or.inl ⟨e, rfl, rfl⟩⟩
    | ok p =>
      dsimp only
      cases hwrite : writeText files p text with
      | error a => exact Or.inl ⟨_, rfl, text, rfl, Or.inr ⟨p, rfl, hwrite⟩⟩
      | ok files' =>
        refine Or.inr ⟨files', rfl, ?_, rfl⟩
        simp [writeAll, hwrite, bind, Except.bind, pure, Except.pure]

/-- The output of a file is written first, and then those of the files behind it. -/
theorem writeAll_filterMap_cons {setting : BuildSetting} {files next : FileTree} {r : FileResult}
    (written : writeAll files (r.placed? setting).toList = .ok next) (others : List FileResult) :
    writeAll files ((r :: others).filterMap (FileResult.placed? setting))
      = writeAll next (others.filterMap (FileResult.placed? setting)) := by
  have hcons : (r :: others).filterMap (FileResult.placed? setting)
      = (r.placed? setting).toList ++ others.filterMap (FileResult.placed? setting) := by
    rw [List.filterMap_cons]
    cases r.placed? setting <;> rfl
  rw [hcons, writeAll_append, written]
  rfl

/-! ## The steps of a build -/

variable [DepthLimits]

namespace Pass

/-- The build of some sources, step by step: each is rendered on the files that those in front of it
leave, and its output is written if it has one.  A file that ends the build is the last thing that
happens, and so is an output without a place. -/
inductive Runs (pass : Pass) (setting : BuildSetting) :
    FileTree → List (String × Source) → List FileResult → FileTree → Option Abort → Prop
  | done (files : FileTree) : pass.Runs setting files [] [] files none
  | ended {files : FileTree} {source : String × Source} {abort : Abort}
    (outcome_eq : (buildFile files pass source.1 source.2).outcome = .error abort)
    (rest : List (String × Source)) : pass.Runs setting files (source :: rest) [] files (some abort)
  | stop {files : FileTree} {source : String × Source} {r : FileResult} {abort : Abort}
    (rendered : r.Rendered pass files source) (unplaced : r.Unplaced setting files abort)
    (rest : List (String × Source)) :
    pass.Runs setting files (source :: rest) [r] files (some abort)
  | next {files files' files'' : FileTree} {source : String × Source} {r : FileResult}
    {rest : List (String × Source)} {results : List FileResult} {abort : Option Abort}
    (rendered : r.Rendered pass files source)
    (placed : r.output.isSome = (r.placed? setting).isSome)
    (written : writeAll files (r.placed? setting).toList = .ok files')
    (others : pass.Runs setting files' rest results files'' abort) :
    pass.Runs setting files (source :: rest) (r :: results) files'' abort

namespace Runs

variable {pass : Pass} {setting : BuildSetting} {files files' : FileTree}
  {sources : List (String × Source)} {results : List FileResult} {abort : Option Abort}

theorem plain (h : pass.Runs setting files sources results files' abort) (hfiles : files.Plain) :
    files'.Plain := by
  induction h with
  | done files => exact hfiles
  | ended outcome_eq rest => exact hfiles
  | stop rendered unplaced rest => exact hfiles
  | next rendered placed written others ih => exact ih (hfiles.writeAll written)

theorem sound (h : pass.Runs setting files sources results files' abort) (hfiles : files.Sound) :
    files'.Sound := by
  induction h with
  | done files => exact hfiles
  | ended outcome_eq rest => exact hfiles
  | stop rendered unplaced rest => exact hfiles
  | next rendered placed written others ih => exact ih (hfiles.writeAll written)

/-- Each file that is rendered has an output or a failure. -/
theorem decided (h : pass.Runs setting files sources results files' abort) :
    ∀ r ∈ results, r.output.isSome = (pass.templates.isSome && r.failure.isNone) := by
  induction h with
  | done files => exact fun r hr => nomatch hr
  | ended outcome_eq rest => exact fun r hr => nomatch hr
  | stop rendered unplaced rest => exact List.forall_mem_singleton.mpr rendered.decided
  | next rendered placed written others ih => exact List.forall_mem_cons.mpr ⟨rendered.decided, ih⟩

/-- A build is ended by an output without a place, or by a file. -/
theorem exists_stop {a : Abort} (h : pass.Runs setting files sources results files' (some a)) :
    (∃ r ∈ results, r.Unplaced setting files' a) ∨
      ∃ source ∈ sources, (buildFile files' pass source.1 source.2).outcome = .error a := by
  generalize habort : some a = abort at h
  induction h with
  | done files => cases habort
  | ended outcome_eq rest =>
    cases habort
    exact Or.inr ⟨_, List.mem_cons_self, outcome_eq⟩
  | stop rendered unplaced rest =>
    cases habort
    exact Or.inl ⟨_, List.mem_singleton_self _, unplaced⟩
  | next rendered placed written others ih =>
    obtain ⟨r, hr, hunplaced⟩ | ⟨source, hsource, houtcome⟩ := ih habort
    · exact Or.inl ⟨r, List.mem_cons_of_mem _ hr, hunplaced⟩
    · exact Or.inr ⟨source, List.mem_cons_of_mem _ hsource, houtcome⟩

/-- A build that is not ended attempts all of its sources, in order. -/
theorem names_eq (h : pass.Runs setting files sources results files' none) :
    results.map FileResult.file = sources.map Prod.fst := by
  generalize habort : none = abort at h
  induction h with
  | done files => rfl
  | ended outcome_eq rest => cases habort
  | stop rendered unplaced rest => cases habort
  | next rendered placed written others ih =>
    rw [List.map_cons, List.map_cons, rendered.named, ih habort]

/-- A build that is not ended writes all of its outputs, in order. -/
theorem writeAll_eq (h : pass.Runs setting files sources results files' none) :
    writeAll files (results.filterMap (FileResult.placed? setting)) = .ok files' := by
  generalize habort : none = abort at h
  induction h with
  | done files => rfl
  | ended outcome_eq rest => cases habort
  | stop rendered unplaced rest => cases habort
  | next rendered placed written others ih => rw [writeAll_filterMap_cons written, ih habort]

theorem placed (h : pass.Runs setting files sources results files' none) :
    ∀ r ∈ results, r.output.isSome = (r.placed? setting).isSome := by
  generalize habort : none = abort at h
  induction h with
  | done files => exact fun r hr => nomatch hr
  | ended outcome_eq rest => cases habort
  | stop rendered unplaced rest => cases habort
  | next rendered placed written others ih =>
    exact List.forall_mem_cons.mpr ⟨placed, ih habort⟩

/-- In a build that is not ended the first source is rendered on the files as they are. -/
theorem head_rendered {source : String × Source} {rest : List (String × Source)}
    (h : pass.Runs setting files (source :: rest) results files' none) :
    ∃ r others, results = r :: others ∧ r.Rendered pass files source := by
  cases h with
  | next rendered placed written others => exact ⟨_, _, rfl, rendered⟩

end Runs

end Pass

variable {pass : Pass} {setting : BuildSetting} {files : FileTree}

theorem buildAll_runs (pass : Pass) (setting : BuildSetting) (files : FileTree)
    (sources : List (String × Source)) :
    let b := buildAll pass (some setting) files sources
    pass.Runs setting files sources b.results b.files b.abort := by
  induction sources generalizing files with
  | nil => exact .done files
  | cons source rest ih =>
    cases hr : (buildFile files pass source.1 source.2).outcome with
    | error a =>
      simp only [buildAll, hr]
      exact .ended hr rest
    | ok r =>
      have hrendered := FileResult.rendered_of_buildFile hr
      obtain ⟨a, ha, hunplaced⟩ | ⟨files', hok, hwritten, hplaced⟩ :=
        writeResult_outcome setting files r
      · simp only [buildAll, hr, ha]
        exact .stop hrendered hunplaced rest
      · simp only [buildAll, hr, hok]
        exact .next hrendered hplaced hwritten (ih files')

/-- An output without a place ends the build in front of the sources behind it. -/
theorem buildAll_unplaced {file : String} {source : Source} {r : FileResult} {abort : Abort}
    (hr : (buildFile files pass file source).outcome = .ok r) (h : r.Unplaced setting files abort)
    (rest : List (String × Source)) :
    let b := buildAll pass (some setting) files ((file, source) :: rest)
    b.results = [r] ∧ b.files = files ∧ b.abort = some abort := by
  have hwrite : (writeResult (some setting) files r).outcome = .error abort := by
    obtain ⟨text, htext, ⟨e, hpath, rfl⟩ | ⟨p, hpath, hwrite⟩⟩ := h
    · simp [writeResult, htext, hpath, Logged.fail]
    · simp [writeResult, htext, hpath, hwrite, Logged.fail]
  simp [buildAll, hr, hwrite]

/-- In a build that is not ended each source has its result, which is what becomes of it on the
files that the build of those in front of it leaves. -/
theorem buildAll_rendered {before after : List (String × Source)} {source : String × Source} :
    let b := buildAll pass (some setting) files (before ++ source :: after)
    b.abort = none → ∃ earlier r later, b.results = earlier ++ r :: later ∧
      earlier.length = before.length ∧
      r.Rendered pass (buildAll pass (some setting) files before).files source := by
  intro b habort
  dsimp only [b] at habort ⊢
  rw [buildAll_append] at habort ⊢
  cases hbefore : (buildAll pass (some setting) files before).abort with
  | some a => simp [hbefore] at habort
  | none =>
    simp only [hbefore, Built.andThen] at habort ⊢
    have hfirst := buildAll_runs pass setting files before
    dsimp only at hfirst
    rw [hbefore] at hfirst
    have hothers := buildAll_runs pass setting (buildAll pass (some setting) files before).files
      (source :: after)
    dsimp only at hothers
    rw [habort] at hothers
    obtain ⟨r, later, hresults, hrendered⟩ := hothers.head_rendered
    rw [hresults]
    refine ⟨_, r, later, rfl, ?_, hrendered⟩
    simpa using congrArg List.length hfirst.names_eq

end ModelScript
