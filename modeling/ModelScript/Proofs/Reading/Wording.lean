import ModelScript.Proofs.Reading.Location
import ModelScript.Proofs.Token.Position

/-!
# One-line messages

The message of a fault begins with the file and the line, and says behind them what is wrong:

    f.message = s!"{f.file}:{f.line}: " ++ f.problem.wording        (Fault.message_eq)

It takes one line, whatever the text is that has the fault (`Fault.not_mem_message`).  A character
that is shown stands between quotes, where a line break is escaped (`Text.not_mem_quoted`), and the
text of a token is a part of one that a class other than the line break takes, so it has none in it
(`Lexer.inLine_of_scan`).
-/

namespace ModelScript

/-! ## Quoted text and numbers -/

namespace Text

theorem hexDigit_ne_newline (n : Nat) : hexDigit n ≠ '\n' := by
  have h : ∀ k < 16, Nat.digitChar k ≠ '\n' := by decide
  exact h _ (Nat.mod_lt _ (by decide))

theorem not_mem_hexDigits (width n : Nat) : '\n' ∉ hexDigits width n := by
  induction width generalizing n with
  | zero => exact List.not_mem_nil
  | succ width ih =>
    rw [hexDigits, List.mem_append, List.mem_singleton, not_or]
    exact ⟨ih _, (hexDigit_ne_newline n).symm⟩

/-- A line break between quotes is escaped, and no other character is written with one. -/
theorem not_mem_escaped {mark : Char} (hm : mark ≠ '\n') (c : Char) : '\n' ∉ escaped mark c := by
  unfold escaped
  by_cases hc : c = '\n'
  · subst hc
    rw [if_neg (by simpa using hm.symm), if_pos rfl]
    decide
  · rw [if_neg hc]
    repeat' split
    all_goals simp [Ne.symm hc, not_mem_hexDigits]

/-- Quoted text takes one line. -/
theorem not_mem_quoted (text : String) : '\n' ∉ (quoted text).toList := by
  have hmark : quoteMark text.toList ≠ '\n' := by
    unfold quoteMark
    split <;> decide
  unfold quoted
  rw [String.toList_ofList]
  simp only [List.mem_append, List.mem_cons, List.mem_flatMap, List.not_mem_nil, or_false, not_or,
    not_exists, not_and]
  exact ⟨⟨hmark.symm, fun c _ => not_mem_escaped hmark c⟩, hmark.symm⟩

theorem not_mem_toDigits (n : Nat) : '\n' ∉ Nat.toDigits 10 n := by
  intro h
  exact absurd (Nat.isDigit_of_mem_toDigits (by decide) (by decide) h) (by decide)

end Text

/-! ## Tokens -/

namespace Token

/-- The text that a token carries has no line break in it. -/
def InLine (t : Token) : Prop := ∀ text, t.payload? = some text → '\n' ∉ text.toList

theorem not_mem_name (t : Token) : '\n' ∉ t.kind.name.toList := by
  cases t with
  | keyword k => cases k <;> decide
  | mark m =>
    cases m with
    | opening b => cases b <;> decide
    | closing b => cases b <;> decide
    | _ => decide
  | _ => simp [kind, Kind.name]

theorem InLine.not_mem_describe {t : Token} (h : t.InLine) : '\n' ∉ t.describe.toList := by
  have hname := t.not_mem_name
  unfold describe
  split
  · simp [toString, hname]
  · next text ht => simp [toString, hname, h text ht]

end Token

namespace LexicalClass

/-- A token carries nothing but characters of the text that it is made of. -/
theorem payload?_subset {l : LexicalClass} {text : List Char} {t : Token} {payload : String}
    (htext : l.IsText text) (ht : l.token? text = some t) (h : t.payload? = some payload) :
    payload.toList ⊆ text := by
  have hlabel (s : String) (h : (labelToken s).payload? = some payload) : payload = s := by
    unfold labelToken at h
    split at h
    · next k hk =>
      have hword := List.find?_some hk
      rw [← beq_iff_eq.1 hword]
      exact (Option.some.inj h).symm
    · split at h
      · exact (Option.some.inj h).symm
      · exact (Option.some.inj h).symm
  cases l with
  | blank | comment => cases ht
  | newline | mark m =>
    cases ht
    cases h
  | operator s | prefixOperator s =>
    cases ht
    cases h
    exact htext ▸ List.Subset.refl _
  | label =>
    cases ht
    rw [hlabel _ h, String.toList_ofList]
    exact List.Subset.refl _
  | string =>
    cases ht
    cases h
    rw [String.toList_ofList]
    exact fun c hc => List.mem_of_mem_tail (List.dropLast_subset _ hc)
  | float | integer =>
    cases ht
    cases h
    rw [String.toList_ofList]
    exact List.Subset.refl _

end LexicalClass

/-- The tokens that the lexer makes carry texts of one line. -/
theorem Lexer.inLine_of_scan {file : String} {place : Place} {skip : Nat} {cs : List Char}
    {ts : List Token} (h : scan file place skip cs = .ok ts) : ∀ t ∈ ts, t.InLine := by
  refine forall_of_scan ?_ h
  intro l rest t _ hl hpos ht payload hpayload hmem
  have htext := (LexicalClass.fits_length hpos).text
  by_cases hnewline : l = .newline
  · subst hnewline
    cases ht
    cases hpayload
  · exact LexicalClass.not_mem_of_isText hl hnewline htext
      (LexicalClass.payload?_subset htext ht hpayload hmem)

/-! ## Messages -/

/-- What a message says of a problem: its category, and what there is to add. -/
def Problem.wording (p : Problem) : String :=
  match p.detail? with
  | none => p.category.description
  | some detail => s!"{p.category.description}: {detail}"

/-- A message begins with the file and the line. -/
theorem Fault.message_eq (f : Fault) :
    f.message = s!"{f.file}:{f.line}: " ++ f.problem.wording := by
  unfold message Problem.wording
  cases f.problem.detail? with
  | none => simp [toString, String.append_assoc]
  | some detail => simp [toString, String.append_assoc]

/-- The token that the message of a problem has in it carries a text of one line. -/
def Problem.InLine (p : Problem) : Prop := ∀ t, p.shown? = some t → t.InLine

theorem Category.not_mem_description (c : Category) : '\n' ∉ c.description.toList := by
  cases c with
  | missingMatching b => cases b <;> decide
  | _ => decide

theorem Problem.InLine.not_mem_detail {p : Problem} (h : p.InLine) {detail : String}
    (hd : p.detail? = some detail) : '\n' ∉ detail.toList := by
  have hmark (m : Mark) : '\n' ≠ m.symbol := by
    cases m with
    | opening b => cases b <;> decide
    | closing b => cases b <;> decide
    | _ => decide
  cases p with
  | unrecognized c column =>
    obtain rfl := Option.some.inj hd
    simp [toString, Text.not_mem_quoted, Text.not_mem_toDigits]
  | noToken wanted found =>
    obtain rfl := Option.some.inj hd
    cases found with
    | none => simp [toString, Text.not_mem_quoted, describeToken?]
    | some t => simp [toString, Text.not_mem_quoted, describeToken?, (h t rfl).not_mem_describe]
  | noExpression found | noIdentifier found =>
    obtain ⟨t, rfl, rfl⟩ := Option.map_eq_some_iff.1 hd
    exact (h t rfl).not_mem_describe
  | leftover found =>
    obtain rfl := Option.some.inj hd
    exact (h found rfl).not_mem_describe
  | noOpening wanted =>
    obtain rfl := Option.some.inj hd
    simpa using hmark wanted
  | unmatched b => cases hd
  | _ =>
    obtain rfl := Option.some.inj hd
    decide

/-- The wording of a problem takes one line if the token that it shows does. -/
theorem Problem.InLine.not_mem_wording {p : Problem} (h : p.InLine) :
    '\n' ∉ p.wording.toList := by
  have hcategory := p.category.not_mem_description
  unfold wording
  split
  · exact hcategory
  · next detail hd => simp [toString, hcategory, h.not_mem_detail hd]

/-- A message takes one line if the name of the file does, and the token that it shows. -/
theorem Fault.not_mem_message {f : Fault} (hfile : '\n' ∉ f.file.toList) (h : f.problem.InLine) :
    '\n' ∉ f.message.toList := by
  rw [message_eq]
  simp [toString, hfile, Text.not_mem_toDigits, h.not_mem_wording]

end ModelScript
