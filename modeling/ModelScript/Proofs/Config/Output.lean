import Mathlib.Data.List.Infix
import ModelScript.Config.Setting
import ModelScript.Proofs.Files.Reading

/-!
# Where outputs go

The output of a source goes to the same directory below the build path, under the name of the source
with another ending:

    dirs/name.zolang ↦ dirs/name.out     (BuildSetting.outputPath_source)

A name that is nothing but the ending of sources begins with its last dot and so has no suffix that
could be replaced; its output is named `.zolang.out`.  That is what `.zolang.zolang` comes to as
well, and there is no other way for two sources to share an output
(`BuildSetting.outputPath_shared`).
-/

namespace ModelScript

/-! ## Stems -/

namespace Path

/-- The suffix of a name is all of it from its last dot on, if there is anything in front. -/
theorem stem_append {front suffix : List Char} (hdot : '.' ∉ suffix) (hsuffix : suffix ≠ []) :
    stem (front ++ '.' :: suffix) = if front = [] then '.' :: suffix else front := by
  have hplain : ∀ c ∈ suffix.reverse, decide (c ≠ '.') = true := by
    intro c hc
    refine decide_eq_true fun h => hdot ?_
    rw [← h]
    exact List.mem_reverse.mp hc
  have hafter : (front ++ '.' :: suffix).reverse.takeWhile (· ≠ '.') = suffix.reverse := by
    rw [List.reverse_append, List.reverse_cons, List.append_assoc,
      List.takeWhile_append_of_pos hplain]
    simp
  have hbefore : (front ++ '.' :: suffix).length - suffix.length - 1 = front.length := by
    rw [List.length_append, List.length_cons]
    omega
  unfold stem
  rw [hafter, List.length_reverse]
  dsimp only
  rw [hbefore]
  cases front with
  | nil => simp
  | cons c rest =>
    have hlength : suffix.length ≠ rest.length + (suffix.length + 1) + 1 := by omega
    simp [hsuffix, hlength]

/-- What stands in front of the ending of sources, unless that is the whole name. -/
theorem stem_source (front : String) : stem (front ++ sourceEnding).toList
    = (if front = "" then sourceEnding else front).toList := by
  have hfront : front.toList = [] ↔ front = "" := String.toList_eq_nil_iff
  rw [String.toList_append, show sourceEnding.toList = '.' :: "zolang".toList from rfl,
    stem_append (by decide) (by decide)]
  by_cases h : front = ""
  · rw [if_pos (hfront.mpr h), if_pos h]
    rfl
  · rw [if_neg (mt hfront.mp h), if_neg h]

theorem join_parts_inj {p : Path} {parts others : List String} :
    p.join ⟨0, parts⟩ = p.join ⟨0, others⟩ ↔ parts = others := by
  simp [join]

end Path

/-! ## Sources and outputs -/

namespace BuildSetting

variable {setting : BuildSetting} {p o : Path}

/-- Whether a path leads below the source path, to a name with the ending of sources. -/
def IsSource (setting : BuildSetting) (p : Path) : Prop :=
  ∃ dirs front, p = setting.sourcePath.join ⟨0, dirs ++ [front ++ sourceEnding]⟩

/-- The name of the output for a source, by what stands in front of the ending of its own. -/
def outputName (setting : BuildSetting) (front : String) : String :=
  (if front = "" then sourceEnding else front) ++ setting.suffix

/-- Whether one source is named by nothing but the ending of sources, and another one in the same
directory by that ending twice. -/
def Shadows (setting : BuildSetting) (p q : Path) : Prop :=
  ∃ dirs, p = setting.sourcePath.join ⟨0, dirs ++ [sourceEnding]⟩ ∧
    q = setting.sourcePath.join ⟨0, dirs ++ [sourceEnding ++ sourceEnding]⟩

/-- The sources that are found below the source path. -/
theorem isSource_of_mem_sourceFiles {files : FileTree} (h : p ∈ setting.sourceFiles files) :
    setting.IsSource p := by
  obtain ⟨base, -, -, e, -, -, hlonger, ⟨front, hfront⟩, rfl⟩ :=
    FileTree.mem_entriesBelow_iff.mp h
  have hne : e.1.drop base.length ≠ [] := by simpa using hlonger
  have hnames : e.1 ≠ [] := List.ne_nil_of_drop_ne_nil hne
  rw [List.getLast?_eq_some_getLast hnames, Option.getD_some] at hfront
  have hlast : (e.1.drop base.length).getLast hne = String.ofList front ++ sourceEnding := by
    rw [List.getLast_drop, ← String.toList_inj, ← hfront, String.toList_append,
      String.toList_ofList]
  refine ⟨(e.1.drop base.length).dropLast, String.ofList front, ?_⟩
  rw [← hlast, List.dropLast_concat_getLast]
  rfl

/-- The output of a source is in the same directory below the build path. -/
theorem outputPath_source {dirs : List String} {front : String}
    (h : setting.outputPath (setting.sourcePath.join ⟨0, dirs ++ [front ++ sourceEnding]⟩)
      = .ok o) : o = setting.buildPath.join ⟨0, dirs ++ [setting.outputName front]⟩ := by
  have hplace : (setting.sourcePath.join ⟨0, dirs ++ [front ++ sourceEnding]⟩).relativeTo?
      setting.sourcePath = some ((⟨0, dirs⟩ : Path).child (front ++ sourceEnding)) :=
    Path.relativeTo?_join _ _ rfl
  have hne : front ++ sourceEnding ≠ "" := by simp [sourceEnding]
  have hname : String.ofList (Path.stem (front ++ sourceEnding).toList ++ setting.suffix.toList)
      = setting.outputName front := by
    rw [Path.stem_source, ← String.toList_append, String.ofList_toList]
    rfl
  unfold outputPath at h
  rw [hplace, Option.getD_some] at h
  unfold Path.withSuffix at h
  dsimp only at h
  rw [Path.name_child, Path.parent_child, if_neg hne, hname] at h
  split at h
  · cases h
  · cases h
    rfl

theorem outputName_eq_iff {front other : String} :
    setting.outputName front = setting.outputName other ↔
      front = other ∨ front = "" ∧ other = sourceEnding ∨ front = sourceEnding ∧ other = "" := by
  unfold outputName
  rw [String.append_left_inj]
  by_cases hfront : front = "" <;> by_cases hother : other = ""
  · simp [hfront, hother]
  · simp [hfront, hother, Ne.symm hother, eq_comm]
  · simp [hfront, hother]
  · simp [hfront, hother]

theorem shadows_iff {dirs others : List String} {front back : String} :
    setting.Shadows (setting.sourcePath.join ⟨0, dirs ++ [front ++ sourceEnding]⟩)
        (setting.sourcePath.join ⟨0, others ++ [back ++ sourceEnding]⟩)
      ↔ dirs = others ∧ front = "" ∧ back = sourceEnding := by
  unfold Shadows
  simp only [Path.join_parts_inj, List.append_singleton_inj, String.append_left_inj,
    String.append_eq_right_iff]
  constructor
  · rintro ⟨_, ⟨rfl, hfront⟩, rfl, hback⟩
    exact ⟨rfl, hfront, hback⟩
  · rintro ⟨rfl, hfront, hback⟩
    exact ⟨dirs, ⟨rfl, hfront⟩, rfl, hback⟩

/-- The sources that are found for a setting lie below its source path, and the output of each is in
the same directory below the build path.  No two of them share an output, unless one is named by
nothing but the ending of sources and the other by that ending twice. -/
theorem outputPath_shared (setting : BuildSetting) :
    (∀ files, ∀ p ∈ setting.sourceFiles files, setting.IsSource p) ∧
      ∀ p q, setting.IsSource p → setting.IsSource q →
        ∀ o o', setting.outputPath p = .ok o → setting.outputPath q = .ok o' →
          (∃ dirs name out, p = setting.sourcePath.join ⟨0, dirs ++ [name]⟩ ∧
            o = setting.buildPath.join ⟨0, dirs ++ [out]⟩) ∧
          (o = o' ↔ p = q ∨ setting.Shadows p q ∨ setting.Shadows q p) := by
  refine ⟨fun files p => isSource_of_mem_sourceFiles, ?_⟩
  rintro p q ⟨dirs, front, rfl⟩ ⟨others, back, rfl⟩ o o' ho ho'
  obtain rfl := outputPath_source ho
  obtain rfl := outputPath_source ho'
  refine ⟨⟨dirs, _, _, rfl, rfl⟩, ?_⟩
  rw [shadows_iff, shadows_iff, Path.join_parts_inj, Path.join_parts_inj,
    List.append_singleton_inj, List.append_singleton_inj, String.append_left_inj,
    outputName_eq_iff]
  constructor
  · rintro ⟨rfl, rfl | ⟨hfront, hback⟩ | ⟨hfront, hback⟩⟩
    · exact Or.inl ⟨rfl, rfl⟩
    · exact Or.inr (Or.inl ⟨rfl, hfront, hback⟩)
    · exact Or.inr (Or.inr ⟨rfl, hback, hfront⟩)
  · rintro (⟨rfl, rfl⟩ | ⟨rfl, hfront, hback⟩ | ⟨rfl, hback, hfront⟩)
    · exact ⟨rfl, Or.inl rfl⟩
    · exact ⟨rfl, Or.inr (Or.inl ⟨hfront, hback⟩)⟩
    · exact ⟨rfl, Or.inr (Or.inr ⟨hfront, hback⟩)⟩

/-- A source and one of the same name in a directory below it. -/
theorem outputPath_shared_below :
    let setting : BuildSetting := ⟨⟨0, ["src"]⟩, ⟨0, ["t"]⟩, ⟨0, ["build"]⟩, "out", []⟩
    let p : Path := ⟨0, ["src", "a.zolang"]⟩
    let q : Path := ⟨0, ["src", "d", "a.zolang"]⟩
    setting.outputPath p = .ok ⟨0, ["build", "a.out"]⟩ ∧
      setting.outputPath q = .ok ⟨0, ["build", "d", "a.out"]⟩ ∧
      ¬ (p = q ∨ setting.Shadows p q ∨ setting.Shadows q p) := by
  intro setting p q
  have hp : setting.outputPath p = .ok ⟨0, ["build", "a.out"]⟩ := by decide +kernel
  have hq : setting.outputPath q = .ok ⟨0, ["build", "d", "a.out"]⟩ := by decide +kernel
  obtain ⟨-, hsources⟩ := setting.outputPath_shared
  obtain ⟨-, hiff⟩ := hsources p q ⟨[], "a", rfl⟩ ⟨["d"], "a", rfl⟩ _ _ hp hq
  exact ⟨hp, hq, fun h => absurd (hiff.mpr h) (by decide)⟩

/-- Two sources that share an output: the first is named by the ending of sources alone. -/
theorem outputPath_shared_hidden :
    let setting : BuildSetting := ⟨⟨0, ["src"]⟩, ⟨0, ["t"]⟩, ⟨0, ["build"]⟩, "out", []⟩
    let files : FileTree := ⟨[], [(["src"], .directory), (["src", ".zolang"], .file []),
      (["src", ".zolang.zolang"], .file [])]⟩
    let p : Path := ⟨0, ["src", ".zolang"]⟩
    let q : Path := ⟨0, ["src", ".zolang.zolang"]⟩
    p ∈ setting.sourceFiles files ∧ q ∈ setting.sourceFiles files ∧ p ≠ q ∧
      setting.outputPath p = .ok ⟨0, ["build", ".zolang.out"]⟩ ∧
      setting.outputPath q = .ok ⟨0, ["build", ".zolang.out"]⟩ := by
  intro setting files p q
  have hp : (["src", ".zolang"], Entry.file []) ∈ files.entries := by decide
  have hq : (["src", ".zolang.zolang"], Entry.file []) ∈ files.entries := by decide
  refine ⟨FileTree.mem_entriesBelow_iff.mpr ⟨["src"], rfl, rfl, _, hp, ?_⟩,
    FileTree.mem_entriesBelow_iff.mpr ⟨["src"], rfl, rfl, _, hq, ?_⟩, ?_⟩ <;> decide +kernel

end BuildSetting

end ModelScript
