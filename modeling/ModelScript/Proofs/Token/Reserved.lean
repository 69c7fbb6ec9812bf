import ModelScript.Proofs.Token.Longest

/-!
# Reserved words

A label that is a keyword or a truth value never becomes an identifier.  The operators that are
spelled as words should be reserved as well, and nearly are: they are tried before labels, so the
label wins only where its end is no end of a word.  Letters, digits and underscores continue both
(`continuesLabel_iff_isWordCharacter`), but only in ASCII.  Beyond that no class but the numbers
fits, so what stands behind such a label is a decimal digit of another script
(`reserved_before_foreign_digit`), as in `plus٣`, which is an identifier and a number.
-/

namespace ModelScript

/-- The operators that are spelled as words. -/
def wordOperators : List String :=
  (operatorSpellings ++ prefixSpellings).filter fun s => s.toList.all Char.isAlpha

/-- A number whose first digit is `d`. -/
def Token.IsNumberFrom (t : Token) (d : Char) : Prop :=
  ∃ digits, t = .integer (String.ofList (d :: digits)) ∨ t = .float (String.ofList (d :: digits))

/-! ## Where a label ends -/

namespace LexicalClass

variable {l : LexicalClass} {cs text : List Char}

theorem continuesLabel_iff_isWordCharacter {c : Char} (hc : c.toNat < 128) :
    continuesLabel c = true ↔ Text.isWordCharacter c = true := by
  have htable : ∀ n < 128, Text.isWordCharacter (Char.ofNat n) = true →
      continuesLabel (Char.ofNat n) = true := by decide
  refine ⟨isWordCharacter_of_continuesLabel, fun h => ?_⟩
  have := htable c.toNat hc
  rw [Char.ofNat_toNat] at this
  exact this h

/-- An operator that is spelled as a word is tried before labels. -/
theorem exists_class_of_wordOperator {s : String} (hs : s ∈ wordOperators) :
    ∃ k ∈ [operator s, prefixOperator s], k ∈ all ∧ all.idxOf k < all.idxOf label := by
  revert s
  decide

/-- The label that is found takes all characters that continue it. -/
theorem continuesLabel_eq_false {rest : List Char} (h : Longest (text ++ rest) label text.length) :
    ∀ d ∈ rest.head?, continuesLabel d = false := by
  intro d hd
  by_contra hcontinues
  obtain ⟨behind, rfl⟩ := List.head?_eq_some_iff.1 hd
  have htext := h.fits.text
  rw [List.take_left] at htext
  obtain ⟨c, run, rfl, hc, hrun⟩ := htext
  have hlonger : label.IsText (c :: run ++ [d]) := by
    refine ⟨c, run ++ [d], rfl, hc, fun e he => ?_⟩
    rcases List.mem_append.1 he with he | he
    · exact hrun e he
    · rw [List.mem_singleton.1 he]
      exact Bool.of_not_eq_false hcontinues
  have hfits : label.Fits (c :: run ++ [d] ++ behind) (c :: run ++ [d]).length :=
    .of_append hlonger trivial
  rw [List.append_assoc, List.singleton_append] at hfits
  have hle := h.longest label (by decide) _ hfits
  rw [List.length_append, List.length_singleton] at hle
  omega

/-- A label that is spelled like an operator is found as a label only in front of a character
beyond ASCII that continues the word. -/
theorem exists_foreign_of_first?_label {s : String} (hs : s ∈ wordOperators) {rest : List Char}
    (h : first? (s.toList ++ rest) = some (label, s.toList.length)) :
    ∃ d behind, rest = d :: behind ∧ 128 ≤ d.toNat := by
  have hlongest := longest_of_first? h
  have hword : s.toList.all Char.isAlpha = true := (List.mem_filter.1 hs).2
  have hbang : s ≠ "!" := by
    rintro rfl
    revert hword
    decide
  by_contra hno
  -- then a word ends behind the label, and the operator fits, which is tried first
  have hstop : ∀ d ∈ rest.head?,
      (s.toList.all Char.isAlpha = true → Text.isWordCharacter d = false) ∧ (s = "!" → d ≠ '=') := by
    intro d hd
    refine ⟨fun _ => ?_, fun h => absurd h hbang⟩
    have hascii : d.toNat < 128 := by
      obtain ⟨behind, rfl⟩ := List.head?_eq_some_iff.1 hd
      exact Nat.lt_of_not_le fun h => hno ⟨d, behind, rfl, h⟩
    by_contra hword
    have := (continuesLabel_iff_isWordCharacter hascii).2 (Bool.of_not_eq_false hword)
    rw [continuesLabel_eq_false hlongest d hd] at this
    cases this
  obtain ⟨k, hk, hall, hbefore⟩ := exists_class_of_wordOperator hs
  have hfits : k.Fits (s.toList ++ rest) s.toList.length := by
    simp only [List.mem_cons, List.not_mem_nil, or_false] at hk
    rcases hk with rfl | rfl
    · exact .of_append rfl hstop
    · exact .of_append rfl hstop
  have := hlongest.first k hall hfits
  omega

/-- Only labels become identifiers, and only those that are neither keywords nor truth values. -/
theorem eq_label_of_token? {name : String} (h : l.token? text = some (.ident name)) :
    l = label ∧ text = name.toList ∧ name ∉ Keyword.all.map Keyword.word
      ∧ name ∉ booleanWords := by
  cases l with
  | label =>
    simp only [token?, Option.some.injEq] at h
    unfold labelToken at h
    split at h
    · cases h
    · next hnone =>
      split at h
      · cases h
      · next hboolean =>
        cases h
        refine ⟨rfl, by simp, fun hmem => ?_, by simpa using hboolean⟩
        obtain ⟨k, hk, he⟩ := List.mem_map.1 hmem
        exact List.find?_eq_none.1 hnone k hk (beq_iff_eq.2 he)
  | _ => cases h

/-- A text that begins beyond ASCII begins with a number. -/
theorem exists_number_of_first? {d : Char} (hd : 128 ≤ d.toNat) {n : Nat}
    (h : first? (d :: cs) = some (l, n)) :
    Text.isDecimalDigit d = true ∧ ∃ t, l.token? ((d :: cs).take n) = some t ∧ t.IsNumberFrom d := by
  obtain ⟨hall, -, hpos⟩ := mem_of_first? h
  have hbegins := begins_of_first? h
  have hnumber := mem_of_begins hd hall hbegins
  obtain ⟨m, rfl⟩ : ∃ m, n = m + 1 := ⟨n - 1, by omega⟩
  simp only [List.mem_cons, List.not_mem_nil, or_false] at hnumber
  rcases hnumber with rfl | rfl
  · exact ⟨hbegins, _, rfl, cs.take m, .inr rfl⟩
  · exact ⟨hbegins, _, rfl, cs.take m, .inl rfl⟩

end LexicalClass

/-! ## Where a token stands -/

namespace Lexer

variable {file : String}

/-- A token stands for a text of its class, and the tokens behind it for what follows that text. -/
theorem exists_of_scan_append {cs : List Char} {place : Place} {skip : Nat} {ts us : List Token}
    {t : Token} (h : scan file place skip cs = .ok (ts ++ t :: us)) :
    ∃ before text rest l place', cs = before ++ (text ++ rest)
      ∧ LexicalClass.first? (text ++ rest) = some (l, text.length) ∧ l.token? text = some t
      ∧ scan file place' 0 rest = .ok us := by
  induction cs generalizing place skip ts with
  | nil => cases skip <;> simp [scan] at h
  | cons c cs ih =>
    have hbehind {place : Place} {skip : Nat} {ts : List Token}
        (h : scan file place skip cs = .ok (ts ++ t :: us)) :
        ∃ before text rest l place', c :: cs = before ++ (text ++ rest)
          ∧ LexicalClass.first? (text ++ rest) = some (l, text.length) ∧ l.token? text = some t
          ∧ scan file place' 0 rest = .ok us := by
      obtain ⟨before, text, rest, l, place', rfl, hrest⟩ := ih h
      exact ⟨c :: before, text, rest, l, place', rfl, hrest⟩
    cases skip with
    | succ skip => exact hbehind h
    | zero =>
      cases hf : LexicalClass.first? (c :: cs) with
      | none => simp [scan, hf] at h
      | some found =>
        obtain ⟨l, n⟩ := found
        obtain ⟨-, hlen, hpos⟩ := LexicalClass.mem_of_first? hf
        have hle := LexicalClass.length_le l (c :: cs)
        obtain ⟨m, rfl⟩ : ∃ m, n = m + 1 := ⟨n - 1, by omega⟩
        simp only [scan, hf, Nat.add_sub_cancel] at h
        cases hscan : scan file (place.after c) m cs with
        | error f =>
          rw [hscan] at h
          cases h
        | ok more =>
          rw [hscan] at h
          have h : (l.token? ((c :: cs).take (m + 1))).toList ++ more = ts ++ t :: us :=
            Except.ok.inj h
          cases ht : l.token? ((c :: cs).take (m + 1)) with
          | none =>
            rw [ht] at h
            have h : more = ts ++ t :: us := h
            exact hbehind (h ▸ hscan)
          | some t' =>
            rw [ht] at h
            have h : t' :: more = ts ++ t :: us := h
            cases ts with
            | cons u ts =>
              obtain ⟨-, rfl⟩ := List.cons.inj h
              exact hbehind hscan
            | nil =>
              obtain ⟨rfl, rfl⟩ := List.cons.inj h
              rw [scan_skip] at hscan
              refine ⟨[], (c :: cs).take (m + 1), (c :: cs).drop (m + 1), l, _, by simp, ?_, ht,
                hscan⟩
              rw [List.take_append_drop, hf, List.length_take_of_le (by omega)]

/-- A text that begins beyond ASCII gives a number first. -/
theorem exists_number_of_scan {d : Char} (hd : 128 ≤ d.toNat) {cs : List Char} {place : Place}
    {ts : List Token} (h : scan file place 0 (d :: cs) = .ok ts) :
    Text.isDecimalDigit d = true ∧ ∃ t, ts.head? = some t ∧ t.IsNumberFrom d := by
  cases hf : LexicalClass.first? (d :: cs) with
  | none => simp [scan, hf] at h
  | some found =>
    obtain ⟨l, n⟩ := found
    obtain ⟨hdigit, t, htoken, ht⟩ := LexicalClass.exists_number_of_first? hd hf
    rw [scan_cons file place hf] at h
    cases hscan : scan file (place.past ((d :: cs).take n)) 0 ((d :: cs).drop n) with
    | error f =>
      rw [hscan] at h
      cases h
    | ok more =>
      rw [hscan] at h
      have h : (l.token? ((d :: cs).take n)).toList ++ more = ts := Except.ok.inj h
      rw [htoken] at h
      exact ⟨hdigit, t, h ▸ rfl, ht⟩

end Lexer

/-! ## Identifiers -/

/-- A name stands in a text right in front of a decimal digit beyond ASCII, and the first of the
tokens behind it is a number that begins with this digit. -/
def BeforeForeignDigit (source : List Char) (name : String) (behind : List Token) : Prop :=
  ∃ before d rest, source = before ++ name.toList ++ d :: rest ∧ 128 ≤ d.toNat
    ∧ Text.isDecimalDigit d = true ∧ ∃ t, behind.head? = some t ∧ t.IsNumberFrom d

/-- No identifier is a keyword or a truth value, and one that is spelled like an operator stands
right in front of a digit beyond ASCII. -/
theorem reserved_before_foreign_digit {file : String} {line : Nat} {source : List Char}
    {ts us : List Token} {name : String}
    (h : tokenize file line source = .ok (ts ++ .ident name :: us)) :
    name ∉ Keyword.all.map Keyword.word ∧ name ∉ booleanWords ∧
      (name ∈ wordOperators → BeforeForeignDigit source name us) := by
  obtain ⟨before, text, rest, l, place, hsource, hfirst, htoken, hrest⟩ :=
    Lexer.exists_of_scan_append h
  obtain ⟨rfl, rfl, hkeyword, hboolean⟩ := LexicalClass.eq_label_of_token? htoken
  refine ⟨hkeyword, hboolean, fun hword => ?_⟩
  obtain ⟨d, behind, rfl, hd⟩ := LexicalClass.exists_foreign_of_first?_label hword hfirst
  obtain ⟨hdigit, hnumber⟩ := Lexer.exists_number_of_scan hd hrest
  exact ⟨before, d, behind, by rw [hsource, List.append_assoc], hd, hdigit, hnumber⟩

/-- Behind `let`, the prefix operator is an identifier in front of a digit beyond ASCII. -/
theorem reserved_before_foreign_digit_not :
    tokenize "orders.zolang" 1 "let not٣ be 1".toList
        = .ok ([.keyword .let'] ++ .ident "not" :: [.integer "٣", .keyword .be, .integer "1"]) ∧
      "not" ∉ Keyword.all.map Keyword.word ∧ "not" ∉ booleanWords ∧
      ("not" ∈ wordOperators → BeforeForeignDigit "let not٣ be 1".toList "not"
        [.integer "٣", .keyword .be, .integer "1"]) := by
  have h : tokenize "orders.zolang" 1 "let not٣ be 1".toList
      = .ok ([.keyword .let'] ++ .ident "not" :: [.integer "٣", .keyword .be, .integer "1"]) := rfl
  exact ⟨h, reserved_before_foreign_digit h⟩

/-- An operator that is spelled as a word is read as an identifier in front of such a digit. -/
theorem tokenize_plus_foreign_digit :
    "plus" ∈ wordOperators ∧
      tokenize "<string>" 1 "plus٣".toList = .ok [.ident "plus", .integer "٣"] :=
  ⟨by decide, rfl⟩

end ModelScript
