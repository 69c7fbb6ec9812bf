import ModelScript.Build.Report
import ModelScript.Proofs.Files.Reading
import ModelScript.Proofs.Lookup.Compile
import ModelScript.Proofs.Template.Naming

/-!
# What a build makes of one file

A source is read, compiled and rendered, in this order, as far as it goes.  `FileResult.Rendered`
says in these terms what is in the result (`FileResult.rendered_of_buildFile`).  Only two things
leave no result and end the build instead: a source that cannot be asked for, and a rendering that
comes to something else than a text or an error of its templates (`not_caught_of_buildFile`).
-/

namespace ModelScript

/-! ## Sources that can be asked for -/

/-- Whether the path of a source, if it has one, can be asked for. -/
def Source.IsNameable : Source → Prop
  | text _ => True
  | path p => '\x00' ∉ p.toString.toList
  | unencodable _ => False

instance (source : Source) : Decidable source.IsNameable :=
  match source with
  | .text _ => inferInstanceAs (Decidable True)
  | .path p => inferInstanceAs (Decidable ('\x00' ∉ p.toString.toList))
  | .unencodable _ => inferInstanceAs (Decidable False)

/-- A path that can be asked for does not end a build, whatever stands there. -/
theorem FileTree.readText_ne_nullByte (files : FileTree) (p : Path) {shown : String}
    (h : '\x00' ∉ shown.toList) : files.readText p shown ≠ .error .nullByte := by
  intro hread
  have hreading := files.reading_readText p shown
  rw [hread] at hreading
  cases hreading with
  | nullByte hnull => exact h hnull

/-- Whether it fails a file at most that its source cannot be read. -/
def SourceError.IsCaught : SourceError → Prop
  | unreadable .nullByte | unencodable _ => False
  | unreadable _ => True

/-- A source that can be asked for gives its text or fails its file, and any other does neither. -/
theorem Source.isNameable_iff (files : FileTree) (source : Source) :
    source.IsNameable ↔ ∀ e, source.read files = .error e → e.IsCaught := by
  cases source with
  | text t => exact ⟨fun _ e h => (nomatch h), fun _ => trivial⟩
  | unencodable p => exact ⟨False.elim, fun h => h _ rfl⟩
  | path p =>
    show _ ↔ ∀ e, (files.readText p p.toString).mapError SourceError.unreadable = .error e →
      e.IsCaught
    constructor
    · intro hnull e he
      cases hread : files.readText p p.toString with
      | ok text =>
        rw [hread] at he
        cases he
      | error e' =>
        rw [hread] at he
        cases he
        cases e' with
        | nullByte => exact absurd hread (files.readText_ne_nullByte p hnull)
        | refused e => exact trivial
        | undecodable f => exact trivial
    · intro h hnull
      have hread : files.readText p p.toString = .error .nullByte := by
        unfold FileTree.readText FileTree.readBytes
        rw [if_pos (by simpa using hnull)]
        rfl
      exact h _ (by rw [hread]; rfl)

theorem Source.read_path_eq_ok_iff {files : FileTree} {p : Path} {text : List Char} :
    (Source.path p).read files = .ok text ↔ files.readText p p.toString = .ok text := by
  show (files.readText p p.toString).mapError SourceError.unreadable = _ ↔ _
  cases files.readText p p.toString <;> simp [Except.mapError]

/-! ## How far a file goes -/

variable [DepthLimits]

/-- The context of a source, if it can be read and compiled. -/
def Source.context? (separators : Separators) (files : FileTree) (file : String)
    (source : Source) : Option Value :=
  match source.read files with
  | .error _ => none
  | .ok content => (compile separators file content).outcome.toOption

theorem compile_eq_ok {separators : Separators} {file : String} {source : List Char} {v : Value}
    (h : (compile separators file source).outcome = .ok v) :
    ∃ body, v = fileContext separators body := by
  unfold compile at h
  dsimp only at h
  cases hread : (readFile file source).outcome with
  | error stop =>
    rw [hread] at h
    cases h
  | ok body =>
    rw [hread] at h
    exact ⟨body, (Except.ok.inj h).symm⟩

theorem Source.context?_eq_some {separators : Separators} {files : FileTree} {file : String}
    {source : Source} {v : Value} (h : source.context? separators files file = some v) :
    ∃ body, v = fileContext separators body := by
  unfold Source.context? at h
  split at h
  · cases h
  · next content _ =>
    cases hv : (compile separators file content).outcome with
    | error stop =>
      rw [hv] at h
      cases h
    | ok w =>
      rw [hv] at h
      cases h
      exact compile_eq_ok hv

variable [TemplateEngine]

namespace Pass

/-- The text that a source is rendered as, if it can be read and compiled and the pass renders. -/
def rendering? (pass : Pass) (files : FileTree) (source : String × Source) :
    Option (Rendering String) := do
  let context ← source.2.context? pass.separators files source.1
  let directory ← pass.templates
  return context.render (TemplateEngine.templates files directory)

/-- The output of a source: the text that it is rendered as, if it is. -/
def output? (pass : Pass) (files : FileTree) (source : String × Source) : Option String :=
  (pass.rendering? files source).bind Except.toOption

/-- Whether a source can be read and compiled, and rendered if the pass renders. -/
def Succeeds (pass : Pass) (files : FileTree) (source : String × Source) : Prop :=
  (source.2.context? pass.separators files source.1).isSome = true ∧
    ∀ x, pass.rendering? files source = some x → ∃ output, x = .ok output

theorem output?_isSome {pass : Pass} {files : FileTree} {source : String × Source} :
    (pass.output? files source).isSome = true ↔
      pass.templates.isSome = true ∧ pass.Succeeds files source := by
  unfold output? Succeeds rendering?
  cases source.2.context? pass.separators files source.1 with
  | none => simp
  | some context =>
    cases pass.templates with
    | none => simp
    | some directory =>
      cases h : context.render (TemplateEngine.templates files directory) <;>
        simp [h, Except.toOption]

end Pass

namespace FileResult

/-- What is in the result of a file: its context, if its source can be read and compiled; its
output, if it is rendered; and a failure unless all that was done to it succeeded. -/
structure Rendered (pass : Pass) (files : FileTree) (source : String × Source) (r : FileResult) :
    Prop where
  named : r.file = source.1
  context_eq : r.context = source.2.context? pass.separators files source.1
  output_eq : r.output = pass.output? files source
  failure_eq_none_iff : r.failure = none ↔ pass.Succeeds files source

variable {pass : Pass} {files : FileTree} {source : String × Source} {r : FileResult}

/-- A file that is rendered has an output or a failure. -/
theorem Rendered.decided (h : r.Rendered pass files source) :
    r.output.isSome = (pass.templates.isSome && r.failure.isNone) := by
  rw [Bool.eq_iff_iff, h.output_eq, Pass.output?_isSome, ← h.failure_eq_none_iff]
  simp

end FileResult

/-! ## One file -/

variable {pass : Pass} {files : FileTree} {source : String × Source}

/-- A file that cannot be read or compiled fails, or cannot even be asked for. -/
theorem buildFile_of_context?_eq_none
    (h : source.2.context? pass.separators files source.1 = none) :
    (∃ failure, (buildFile files pass source.1 source.2).outcome
        = .ok ⟨source.1, none, none, some failure⟩) ∨
      ¬ source.2.IsNameable ∧
        ∃ abort, (buildFile files pass source.1 source.2).outcome = .error abort := by
  unfold Source.context? at h
  unfold buildFile
  cases hread : source.2.read files with
  | error e =>
    dsimp only
    have hcaught := fun hnameable =>
      (Source.isNameable_iff files source.2).mp hnameable e hread
    cases e with
    | unencodable f => exact Or.inr ⟨hcaught, _, rfl⟩
    | unreadable e =>
      cases e with
      | nullByte => exact Or.inr ⟨hcaught, _, rfl⟩
      | refused e => exact Or.inl ⟨_, rfl⟩
      | undecodable f => exact Or.inl ⟨_, rfl⟩
  | ok content =>
    rw [hread] at h
    dsimp only at h ⊢
    obtain ⟨v, hv⟩ | ⟨f, hf⟩ := Lookup.compile_outcome pass.separators source.1 content
    · rw [hv] at h
      cases h
    · rw [hf]
      exact Or.inl ⟨.fault f, rfl⟩

/-- A file that can be read and compiled is rendered. -/
theorem buildFile_of_context?_eq_some {context : Value}
    (h : source.2.context? pass.separators files source.1 = some context) :
    (buildFile files pass source.1 source.2).outcome
      = (renderFile files pass source.1 context).outcome := by
  unfold Source.context? at h
  unfold buildFile
  cases hread : source.2.read files with
  | error e =>
    rw [hread] at h
    cases h
  | ok content =>
    rw [hread] at h
    dsimp only at h ⊢
    cases hv : (compile pass.separators source.1 content).outcome with
    | error stop =>
      rw [hv] at h
      cases h
    | ok v =>
      rw [hv] at h
      cases h
      rfl

/-- A context that cannot be rendered fails its file, or ends the build if the error is not
caught. -/
theorem renderFile_of_error {directory : String} {context : Value} (file : String)
    (hdirectory : pass.templates = some directory)
    {e : RenderError TemplateEngine.Error TemplateEngine.Crash}
    (he : context.render (TemplateEngine.templates files directory) = .error e) :
    (∃ failure, (renderFile files pass file context).outcome
        = .ok ⟨file, some context, none, some failure⟩) ∨
      ¬ e.IsCaught ∧ ∃ abort, (renderFile files pass file context).outcome = .error abort := by
  unfold renderFile
  rw [hdirectory]
  dsimp only
  rw [he]
  cases e with
  | template e => exact Or.inl ⟨_, rfl⟩
  | refused e => exact Or.inl ⟨_, rfl⟩
  | undecodable f => exact Or.inl ⟨_, rfl⟩
  | tooDeep => exact Or.inl ⟨_, rfl⟩
  | unnamed fields => exact Or.inr ⟨id, _, rfl⟩
  | crashed crash => exact Or.inr ⟨id, _, rfl⟩

/-- A file is read, compiled and rendered as far as it goes, or ends the build. -/
theorem buildFile_cases (pass : Pass) (files : FileTree) (source : String × Source) :
    (∃ r, (buildFile files pass source.1 source.2).outcome = .ok r ∧
        r.Rendered pass files source) ∨
      (∃ abort, (buildFile files pass source.1 source.2).outcome = .error abort) ∧
        (¬ source.2.IsNameable ∨
          ∃ e, pass.rendering? files source = some (.error e) ∧ ¬ e.IsCaught) := by
  cases hcontext : source.2.context? pass.separators files source.1 with
  | none =>
    obtain ⟨failure, h⟩ | ⟨hnameable, habort⟩ := buildFile_of_context?_eq_none hcontext
    · refine Or.inl ⟨_, h, rfl, hcontext.symm, ?_, ?_⟩
      · simp [Pass.output?, Pass.rendering?, hcontext]
      · simp [Pass.Succeeds, hcontext]
    · exact Or.inr ⟨habort, Or.inl hnameable⟩
  | some context =>
    rw [buildFile_of_context?_eq_some hcontext]
    cases hdirectory : pass.templates with
    | none =>
      refine Or.inl ⟨⟨source.1, some context, none, none⟩, ?_, rfl, hcontext.symm, ?_, ?_⟩
      · unfold renderFile
        rw [hdirectory]
        rfl
      · simp [Pass.output?, Pass.rendering?, hdirectory]
      · simp [Pass.Succeeds, Pass.rendering?, hcontext, hdirectory]
    | some directory =>
      have hrendering : pass.rendering? files source
          = some (context.render (TemplateEngine.templates files directory)) := by
        simp [Pass.rendering?, hcontext, hdirectory]
      cases hrender : context.render (TemplateEngine.templates files directory) with
      | ok output =>
        rw [hrender] at hrendering
        refine Or.inl ⟨⟨source.1, some context, some output, none⟩, ?_, rfl, hcontext.symm, ?_, ?_⟩
        · unfold renderFile
          rw [hdirectory]
          dsimp only
          rw [hrender]
          rfl
        · simp [Pass.output?, hrendering, Except.toOption]
        · simp [Pass.Succeeds, hrendering, hcontext]
      | error e =>
        rw [hrender] at hrendering
        obtain ⟨failure, h⟩ | ⟨hcaught, habort⟩ :=
          renderFile_of_error source.1 hdirectory hrender
        · refine Or.inl ⟨_, h, rfl, hcontext.symm, ?_, ?_⟩
          · simp [Pass.output?, hrendering, Except.toOption]
          · simp [Pass.Succeeds, hrendering]
        · exact Or.inr ⟨habort, Or.inr ⟨e, hrendering, hcaught⟩⟩

namespace FileResult

theorem rendered_of_buildFile {r : FileResult}
    (h : (buildFile files pass source.1 source.2).outcome = .ok r) :
    r.Rendered pass files source := by
  obtain ⟨r', hr', hrendered⟩ | ⟨⟨abort, habort⟩, -⟩ :=
    buildFile_cases pass files source
  · rw [h] at hr'
    cases hr'
    exact hrendered
  · rw [h] at habort
    cases habort

end FileResult

/-- A source that cannot be asked for ends the build. -/
theorem buildFile_of_not_isNameable (pass : Pass) (files : FileTree) (h : ¬ source.2.IsNameable) :
    ∃ abort, (buildFile files pass source.1 source.2).outcome = .error abort := by
  have hread := mt (Source.isNameable_iff files source.2).mpr h
  obtain ⟨e, he⟩ := Classical.not_forall.mp hread
  obtain ⟨hread, hcaught⟩ := Classical.not_imp.mp he
  unfold buildFile
  rw [hread]
  cases e with
  | unencodable f => exact ⟨_, rfl⟩
  | unreadable e =>
    cases e with
    | nullByte => exact ⟨_, rfl⟩
    | refused e => exact absurd trivial hcaught
    | undecodable f => exact absurd trivial hcaught

/-- What ends a build before an output is written: a source that cannot be asked for, or a rendering
with an error that is not caught. -/
theorem not_caught_of_buildFile {abort : Abort}
    (h : (buildFile files pass source.1 source.2).outcome = .error abort) :
    ¬ source.2.IsNameable ∨
      ∃ e, pass.rendering? files source = some (.error e) ∧ ¬ e.IsCaught := by
  obtain ⟨r, hr, -⟩ | ⟨-, hcause⟩ :=
    buildFile_cases pass files source
  · rw [h] at hr
    cases hr
  · exact hcause

end ModelScript
