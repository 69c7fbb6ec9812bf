import ModelScript.Config.Load
import ModelScript.Defaults
import ModelScript.Proofs.Config.Document
import ModelScript.Proofs.Files.Reading

/-!
# How loading a configuration ends

Loading should end with settings or with a configuration error (`Answered`).  It does for every file
that is missing, is a directory, is no JSON or describes no settings, and it does not for exactly
three kinds of input: a path with a null character, bytes that are not UTF-8, and a number of too
many digits (`loadConfig_answered_iff`).  The last needs a text with as many digits in a row
(`loadConfig_answered_of_text`).
-/

namespace ModelScript

/-- Loading ends with settings or with a configuration error. -/
def Answered (result : Except LoadError (List BuildSetting)) : Prop :=
  (∃ settings, result = .ok settings) ∨ ∃ e, result = .error (.config e)

section Schemas

variable [ConfigSchema] {files : FileTree} {path : Path}

/-- A text is answered, whatever it says, unless it is refused for the digits of a number. -/
theorem answered_iff_of_readText {cs : List Char}
    (h : files.readText path path.toString = .ok cs) :
    Answered (loadConfig files path) ↔ ∀ n, Document.ofText cs ≠ .error (.tooManyDigits n) := by
  unfold loadConfig
  rw [h]
  dsimp only
  cases Document.ofText cs with
  | error refusal =>
    cases refusal with
    | malformed => simp [Answered]
    | tooManyDigits n => simp [Answered]
  | ok document =>
    dsimp only
    cases ConfigSchema.settings? document with
    | none => simp [Answered]
    | some settings => simp [Answered]

/-- Loading a configuration is answered exactly if its path has no null character and its file, if
there is one, has the bytes of a text without a number of too many digits. -/
theorem loadConfig_answered_iff (files : FileTree) (path : Path) :
    Answered (loadConfig files path) ↔
      '\x00' ∉ path.toString.toList ∧
        ∀ bytes, files.entry path = .ok (.file bytes) →
          ∃ text : String, Text.Utf8.encode text = bytes ∧
            ∀ n, Document.ofText (Text.unifyLineBreaks text.toList)
              ≠ .error (.tooManyDigits n) := by
  have hreading := files.reading_readText path path.toString
  cases hread : files.readText path path.toString with
  | error e =>
    rw [hread] at hreading
    unfold loadConfig
    rw [hread]
    cases hreading with
    | nullByte hnull => simp [Answered, hnull]
    | refused hnull hentry => simp [Answered, hnull, hentry]
    | @undecodable bytes f hnull hentry hbytes =>
      refine ⟨by simp [Answered], fun ⟨_, htext⟩ => ?_⟩
      obtain ⟨text, htext, -⟩ := htext bytes hentry
      exact absurd htext (hbytes text)
  | ok cs =>
    rw [answered_iff_of_readText hread]
    rw [hread] at hreading
    cases hreading with
    | @text text hnull hentry =>
      constructor
      · intro hdigits
        refine ⟨hnull, fun bytes hbytes => ⟨text, ?_, hdigits⟩⟩
        rw [hentry] at hbytes
        cases hbytes
        rfl
      · intro ⟨_, h⟩
        obtain ⟨text', htext, hdigits⟩ := h _ hentry
        rwa [Text.Utf8.encode_inj.1 htext] at hdigits

/-- A text loads as it should if it has no more digits in a row than a number may have. -/
theorem loadConfig_answered_of_text {text : String} (hnull : '\x00' ∉ path.toString.toList)
    (hentry : files.entry path = .ok (.file (Text.Utf8.encode text)))
    (hdigits : ∀ digits, digits <:+: text.toList → (∀ c ∈ digits, c.isDigit = true) →
      digits.length ≤ Text.digitLimit) : Answered (loadConfig files path) := by
  rw [answered_iff_of_readText (FileTree.readText_of_entry hnull hentry)]
  intro n h
  obtain ⟨hlimit, digits, hrun, rfl, hall⟩ := Document.overlong_of_ofText h
  have hline : '\n' ∉ digits := fun hmem => absurd (hall _ hmem) (by decide)
  exact absurd (hdigits digits (Text.infix_of_unifyLineBreaks hline hrun) hall)
    (Nat.not_le.2 hlimit)

end Schemas

/-! ## A file that is no text -/

/-- A configuration file of a single byte, which starts no character. -/
def undecodableFiles : FileTree := ⟨[], [(["zolang.json"], .file [0xFF])]⟩

/-- Its path has no null character, and still it is not answered. -/
theorem loadConfig_undecodableFiles :
    '\x00' ∉ (Path.ofString "zolang.json").toString.toList ∧
      loadConfig undecodableFiles (.ofString "zolang.json")
        = .error (.undecodable ⟨0, 0, 0xFF, .invalidStart⟩) ∧
      ¬ Answered (loadConfig undecodableFiles (.ofString "zolang.json")) := by
  have hload : loadConfig undecodableFiles (.ofString "zolang.json")
      = .error (.undecodable ⟨0, 0, 0xFF, .invalidStart⟩) := rfl
  refine ⟨by decide, hload, ?_⟩
  rw [hload]
  simp [Answered]

end ModelScript
