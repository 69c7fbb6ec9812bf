import Mathlib.Data.List.TakeWhile
import ModelScript.Proofs.Token.Lines

/-!
# Tokens written out

`Token.spelling` writes a token, and `Token.written` writes tokens with single spaces between them.
A token is lexable if its text is of its own class: an identifier is a label that no keyword, truth
value or operator takes, a number is made of digits, and a string holds no bare quote and no line
break.  Lexable tokens are read back, whatever tokens follow them:

    all of ts lexable → tokenize (written ts) = ts     (tokenize_written)

Two facts about a class carry this.  It fits nowhere but in front of a character it begins with
(`LexicalClass.length_eq_zero`), which rules out all classes in front of the token's own, and it
takes no more in front of a space than at the end of a text, unless it crosses spaces.
-/

namespace ModelScript

/-! ## Spelling -/

namespace Token

def spelling : Token → List Char
  | ident s | integer s | float s | boolean s | operator s | prefixOperator s => s.toList
  | string raw => '"' :: raw.toList ++ ['"']
  | newline => ['\n']
  | keyword k => k.word.toList
  | mark m => [m.symbol]

/-- Tokens written with single spaces between them. -/
def written (ts : List Token) : List Char := [' '].intercalate (ts.map spelling)

/-- A letter or underscore, and letters, digits and underscores behind it. -/
def IsLabel (cs : List Char) : Prop :=
  ∃ c rest, cs = c :: rest ∧ LexicalClass.beginsLabel c = true
    ∧ ∀ d ∈ rest, LexicalClass.continuesLabel d = true

def IsDigits (cs : List Char) : Prop := cs ≠ [] ∧ ∀ c ∈ cs, Text.isDecimalDigit c = true

instance (cs : List Char) : Decidable (IsLabel cs) :=
  decidable_of_iff
    (cs.head?.any LexicalClass.beginsLabel = true ∧ cs.tail.all LexicalClass.continuesLabel = true)
    (by cases cs <;> simp [IsLabel])

instance (cs : List Char) : Decidable (IsDigits cs) :=
  decidable_of_iff (cs ≠ [] ∧ cs.all Text.isDecimalDigit = true) (by simp [IsDigits])

/-- Characters that can stand between quotes: neither a quote nor a line break, and a backslash only
together with the character behind it. -/
inductive IsQuotable : List Char → Prop
  | nil : IsQuotable []
  | plain {c : Char} {cs : List Char} (hq : c ≠ '"') (hn : c ≠ '\n') (hb : c ≠ '\\')
    (h : IsQuotable cs) : IsQuotable (c :: cs)
  | escape {c : Char} {cs : List Char} (hn : c ≠ '\n') (h : IsQuotable cs) :
    IsQuotable ('\\' :: c :: cs)

/-- A token whose text is of its own class. -/
inductive Lexable : Token → Prop
  | ident {name : String} (h : IsLabel name.toList) (hk : name ∉ Keyword.all.map Keyword.word)
    (hb : name ∉ booleanWords) (ho : name ∉ operatorSpellings) (hp : name ∉ prefixSpellings) :
    Lexable (ident name)
  | keyword (k : Keyword) : Lexable (keyword k)
  | boolean {word : String} (h : word ∈ booleanWords) : Lexable (boolean word)
  | integer {text : String} (h : IsDigits text.toList) : Lexable (integer text)
  | float {text : String} {whole fraction : List Char} (ht : text.toList = whole ++ '.' :: fraction)
    (hw : IsDigits whole) (hf : IsDigits fraction) : Lexable (float text)
  | string {raw : String} (h : IsQuotable raw.toList) : Lexable (string raw)
  | operator {s : String} (h : s ∈ operatorSpellings) : Lexable (operator s)
  | prefixOperator {s : String} (h : s ∈ prefixSpellings) : Lexable (prefixOperator s)
  | mark (m : Mark) : Lexable (mark m)
  | newline : Lexable newline

end Token

/-! ## Where a class fits -/

namespace LexicalClass

/-- Whether a text of a class can begin with a character. -/
def begins : LexicalClass → Char → Bool
  | blank, c => isBlank c
  | comment, c => c = '#'
  | newline, c => c = '\n'
  | operator s, c | prefixOperator s, c => s.toList.head? = some c
  | label, c => beginsLabel c
  | string, c => c = '"'
  | float, c | integer, c => Text.isDecimalDigit c
  | mark m, c => c = m.symbol

theorem spelled_eq_zero {spelling : List Char} {stop : Char → Bool} {c : Char}
    (h : spelling.head? ≠ some c) (cs : List Char) : spelled spelling stop (c :: cs) = 0 := by
  unfold spelled
  split
  · next hp =>
    have hbegins := List.isPrefixOf_iff_prefix.1 (Bool.and_eq_true_iff.1 hp).1
    cases spelling with
    | nil => rfl
    | cons s spelling =>
      obtain ⟨tail, htail⟩ := hbegins
      cases htail
      exact absurd rfl h
  · rfl

/-- A class fits in front of no other characters than those it begins with. -/
theorem length_eq_zero {l : LexicalClass} {c : Char} (h : l.begins c = false) (cs : List Char) :
    l.length (c :: cs) = 0 := by
  cases l with
  | blank => simp [length, show isBlank c = false from h]
  | comment => simp [length, show c ≠ '#' by simpa [begins] using h]
  | newline => simp [length, show c ≠ '\n' by simpa [begins] using h]
  | operator s => exact spelled_eq_zero (by simpa [begins] using h) cs
  | prefixOperator s => exact spelled_eq_zero (by simpa [begins] using h) cs
  | label => simp [length, show beginsLabel c = false from h]
  | string => simp [length, show c ≠ '"' by simpa [begins] using h]
  | float =>
    have hcount : digitCount (c :: cs) = 0 := by
      simp [digitCount, show Text.isDecimalDigit c = false from h]
    simp only [length, hcount]
    split <;> simp
  | integer => simp [length, digitCount, show Text.isDecimalDigit c = false from h]
  | mark m => simp [length, show c ≠ m.symbol by simpa [begins] using h]

/-- The first class that fits is the one that no class in front of it fits before. -/
theorem first?_eq_some {l : LexicalClass} {front back : List LexicalClass} {cs : List Char}
    (hall : all = front ++ l :: back) (hfront : ∀ k ∈ front, k.length cs = 0)
    (hpos : 0 < l.length cs) : first? cs = some (l, l.length cs) := by
  have hnone : front.findSome? (fun k => if k.length cs = 0 then none else some (k, k.length cs))
      = none := by
    rw [List.findSome?_eq_none_iff]
    intro k hk
    rw [if_pos (hfront k hk)]
  unfold first?
  rw [hall, List.findSome?_append, hnone, Option.none_or, List.findSome?_cons,
    if_neg (Nat.ne_of_gt hpos)]

/-- A class that crosses spaces begins with characters that no other class begins with. -/
theorem eq_of_begins {k l : LexicalClass} (hk : k ∈ all) (hcross : k.crosses ' ' = true)
    (hl : l ∈ all) {c : Char} (hkc : k.begins c = true) (hlc : l.begins c = true) : l = k := by
  have hcrossing : ∀ k ∈ all, k.crosses ' ' = true → k ∈ [blank, comment, string] := by decide
  have hblank : ∀ l ∈ all, (l.begins ' ' || l.begins '\t' || l.begins '\r') = true → l = blank := by
    decide
  have hcomment : ∀ l ∈ all, l.begins '#' = true → l = comment := by decide
  have hstring : ∀ l ∈ all, l.begins '"' = true → l = string := by decide
  have hk := hcrossing k hk hcross
  simp only [List.mem_cons, List.not_mem_nil, or_false] at hk
  rcases hk with rfl | rfl | rfl
  · have hc : c = ' ' ∨ c = '\t' ∨ c = '\r' := by simpa [begins, isBlank, or_assoc] using hkc
    rcases hc with rfl | rfl | rfl <;> exact hblank l hl (by simp [hlc])
  · obtain rfl : c = '#' := by simpa [begins] using hkc
    exact hcomment l hl hlc
  · obtain rfl : c = '"' := by simpa [begins] using hkc
    exact hstring l hl hlc

theorem begins_of_first? {c : Char} {cs : List Char} {l : LexicalClass} {n : Nat}
    (h : first? (c :: cs) = some (l, n)) : l.begins c = true := by
  obtain ⟨-, hn, hpos⟩ := mem_of_first? h
  cases hb : l.begins c with
  | true => rfl
  | false =>
    rw [length_eq_zero hb] at hn
    omega

/-- What is found at the end of a text is found in front of a space, unless it crosses that. -/
theorem first?_append_space {cs : List Char} {l : LexicalClass} {n : Nat}
    (h : first? cs = some (l, n)) (hl : l.crosses ' ' = false) (rest : List Char) :
    first? (cs ++ ' ' :: rest) = some (l, n) := by
  cases cs with
  | nil => cases h
  | cons c cs =>
    rw [← h]
    unfold first?
    rw [← List.head?_filterMap, ← List.head?_filterMap]
    congr 1
    refine List.filterMap_congr fun k hk => ?_
    have hlen : k.length (c :: cs ++ ' ' :: rest) = k.length (c :: cs) := by
      cases hcross : k.crosses ' ' with
      | false => exact length_append_stop hcross (List.cons_ne_nil c cs) rest
      | true =>
        have hbegins : k.begins c = false := by
          cases hkc : k.begins c with
          | false => rfl
          | true =>
            have heq := eq_of_begins hk hcross (mem_of_first? h).1 hkc (begins_of_first? h)
            rw [heq, hcross] at hl
            cases hl
        rw [List.cons_append, length_eq_zero hbegins, length_eq_zero hbegins]
    rw [hlen]

/-! ## Labels -/

/-- The classes in front of labels. -/
def beforeLabel : List LexicalClass :=
  [blank, comment, newline] ++ operatorSpellings.map operator
    ++ prefixSpellings.map prefixOperator

theorem continuesLabel_of_beginsLabel {c : Char} (h : beginsLabel c = true) :
    continuesLabel c = true := by
  unfold beginsLabel at h
  unfold continuesLabel Char.isAlphanum
  rw [Bool.or_eq_true] at h ⊢
  exact h.imp_left fun h => by rw [h, Bool.true_or]

theorem toNat_lt_of_continuesLabel {c : Char} (h : continuesLabel c = true) : c.toNat < 128 := by
  have hnat : c.toNat = c.val.toNat := rfl
  delta continuesLabel Char.isAlphanum Char.isAlpha Char.isUpper Char.isLower Char.isDigit at h
  simp only [Bool.or_eq_true, Bool.and_eq_true, decide_eq_true_eq, ge_iff_le,
    UInt32.le_iff_toNat_le, Char.ext_iff] at h
  rcases h with ((h | h) | h) | h
  · exact hnat ▸ Nat.lt_of_le_of_lt h.2 (by decide)
  · exact hnat ▸ Nat.lt_of_le_of_lt h.2 (by decide)
  · exact hnat ▸ Nat.lt_of_le_of_lt h.2 (by decide)
  · rw [hnat, h]
    decide

theorem isWordCharacter_of_continuesLabel {c : Char} (h : continuesLabel c = true) :
    Text.isWordCharacter c = true := by
  have hsmall := toNat_lt_of_continuesLabel h
  unfold continuesLabel at h
  rcases Bool.or_eq_true_iff.1 h with h | h
  · exact Text.isWordCharacter_of_isAlphanum hsmall h
  · obtain rfl : c = '_' := by simpa using h
    decide

/-- An operator does not fit in front of a label other than itself: if it is a word, more of the
label follows it. -/
theorem spelled_eq_zero_of_isLabel {s : String} (hs : s ∈ operatorSpellings ++ prefixSpellings)
    {cs : List Char} (h : Token.IsLabel cs) (hne : s.toList ≠ cs) :
    spelled s.toList (refusedAfter s.toList) cs = 0 := by
  obtain ⟨c, rest, rfl, hc, hrest⟩ := h
  have hkind : ∀ s ∈ operatorSpellings ++ prefixSpellings,
      s.toList.head?.any beginsLabel = false ∨ s.toList.all Char.isAlpha = true := by decide
  rcases hkind s hs with hhead | hword
  · refine spelled_eq_zero (fun hsc => ?_) rest
    rw [hsc, Option.any_some, hc] at hhead
    cases hhead
  · -- what follows the word in the label refuses it there
    unfold spelled
    split
    · next hfits =>
      obtain ⟨hbegins, hstop⟩ := Bool.and_eq_true_iff.1 hfits
      obtain ⟨tail, htail⟩ := List.isPrefixOf_iff_prefix.1 hbegins
      cases tail with
      | nil => exact absurd (by rw [← htail, List.append_nil]) hne
      | cons d tail =>
        have hd : continuesLabel d = true := by
          have hmem : d ∈ c :: rest := by
            rw [← htail]
            simp
          rcases List.mem_cons.1 hmem with rfl | hd
          · exact continuesLabel_of_beginsLabel hc
          · exact hrest d hd
        rw [← htail, List.drop_left] at hstop
        simp [refusedAfter, hword, isWordCharacter_of_continuesLabel hd] at hstop
    · rfl

/-- A label that is no operator is found as a label. -/
theorem first?_label {cs : List Char} (h : Token.IsLabel cs)
    (hne : ∀ s ∈ operatorSpellings ++ prefixSpellings, s.toList ≠ cs) :
    first? cs = some (label, cs.length) := by
  obtain ⟨c, rest, rfl, hc, hrest⟩ := id h
  have hlen : length label (c :: rest) = (c :: rest).length := by
    have hall : rest.takeWhile continuesLabel = rest := List.takeWhile_eq_self_iff.2 hrest
    simp [length, hc, hall]
  have hall : all = beforeLabel ++ label :: ([string, float, integer] ++ Mark.all.map mark) := rfl
  rw [← hlen]
  refine first?_eq_some hall ?_ (by rw [hlen]; simp)
  have hbegins : ∀ l ∈ [blank, comment, newline], ∀ n < 128,
      beginsLabel (Char.ofNat n) = true → l.begins (Char.ofNat n) = false := by decide
  intro k hk
  simp only [beforeLabel, List.mem_append, List.mem_map] at hk
  rcases hk with (hk | ⟨s, hs, rfl⟩) | ⟨s, hs, rfl⟩
  · refine length_eq_zero ?_ rest
    have hsmall := toNat_lt_of_continuesLabel (continuesLabel_of_beginsLabel hc)
    have := hbegins k hk c.toNat hsmall
    rw [Char.ofNat_toNat] at this
    exact this hc
  · exact spelled_eq_zero_of_isLabel (List.mem_append_left _ hs) h
      (hne s (List.mem_append_left _ hs))
  · exact spelled_eq_zero_of_isLabel (List.mem_append_right _ hs) h
      (hne s (List.mem_append_right _ hs))

theorem labelToken_of_not_mem {name : String} (hk : name ∉ Keyword.all.map Keyword.word)
    (hb : name ∉ booleanWords) : labelToken name = .ident name := by
  have hnone : Keyword.ofWord? name = none := by
    refine List.find?_eq_none.2 fun k hm he => hk ?_
    rw [beq_iff_eq] at he
    exact he ▸ List.mem_map_of_mem hm
  unfold labelToken
  rw [hnone]
  simp [hb]

/-- A word of the language is a label, and no operator. -/
theorem first?_word {word : String}
    (h : word ∈ Keyword.all.map Keyword.word ++ booleanWords) :
    first? word.toList = some (label, word.toList.length) := by
  revert word
  decide

/-! ## Numbers -/

/-- The classes in front of the numbers begin with ASCII characters. -/
theorem toNat_lt_of_begins {l : LexicalClass} (hl : l ∈ beforeLabel ++ [label, string]) {c : Char}
    (h : l.begins c = true) : c.toNat < 128 := by
  have hhead : ∀ s ∈ operatorSpellings ++ prefixSpellings,
      s.toList.head?.all (·.toNat < 128) = true := by decide
  have hspelled (s : String) (hs : s ∈ operatorSpellings ++ prefixSpellings)
      (hc : s.toList.head? = some c) : c.toNat < 128 := by
    simpa [hc] using hhead s hs
  simp only [beforeLabel, List.mem_append, List.mem_cons, List.mem_map, List.not_mem_nil,
    or_false] at hl
  rcases hl with (((rfl | rfl | rfl) | ⟨s, hs, rfl⟩) | ⟨s, hs, rfl⟩) | rfl | rfl
  · have hblank : (c = ' ' ∨ c = '\t') ∨ c = '\r' := by simpa [begins, isBlank] using h
    rcases hblank with (rfl | rfl) | rfl <;> decide
  · obtain rfl : c = '#' := by simpa [begins] using h
    decide
  · obtain rfl : c = '\n' := by simpa [begins] using h
    decide
  · exact hspelled s (List.mem_append_left _ hs) (by simpa [begins] using h)
  · exact hspelled s (List.mem_append_right _ hs) (by simpa [begins] using h)
  · exact toNat_lt_of_continuesLabel (continuesLabel_of_beginsLabel h)
  · obtain rfl : c = '"' := by simpa [begins] using h
    decide

/-- No class in front of the numbers begins with a digit. -/
theorem begins_eq_false_of_isDecimalDigit {c : Char} (hc : Text.isDecimalDigit c = true) :
    ∀ l ∈ beforeLabel ++ [label, string], l.begins c = false := by
  have htable : ∀ n < 128, Text.isDecimalDigit (Char.ofNat n) = true →
      ∀ l ∈ beforeLabel ++ [label, string], l.begins (Char.ofNat n) = false := by decide
  intro l hl
  cases hb : l.begins c with
  | false => rfl
  | true =>
    have hnone := htable c.toNat (toNat_lt_of_begins hl hb)
    rw [Char.ofNat_toNat] at hnone
    rw [← hb, hnone hc l hl]

theorem digitCount_of_isDigits {cs : List Char} (h : Token.IsDigits cs) :
    digitCount cs = cs.length := by
  unfold digitCount
  rw [List.takeWhile_eq_self_iff.2 h.2]

/-- Digits alone are found as a whole number. -/
theorem first?_digits {cs : List Char} (h : Token.IsDigits cs) :
    first? cs = some (integer, cs.length) := by
  have hcount := digitCount_of_isDigits h
  have hlen : length integer cs = cs.length := hcount
  have hfloat : length float cs = 0 := by
    simp only [length, hcount, List.drop_length]
  have hall : all = (beforeLabel ++ [label, string] ++ [float])
      ++ integer :: Mark.all.map mark := rfl
  rw [← hlen]
  refine first?_eq_some hall ?_ (by rw [hlen]; exact List.length_pos_iff.2 h.1)
  intro k hk
  rcases List.mem_append.1 hk with hk | hk
  · obtain ⟨c, rest, rfl⟩ := List.exists_cons_of_ne_nil h.1
    exact length_eq_zero (begins_eq_false_of_isDecimalDigit (h.2 c (by simp)) k hk) rest
  · rw [List.mem_singleton.1 hk]
    exact hfloat

/-- Digits, a dot and digits are found as a number with a fraction. -/
theorem first?_fraction {whole fraction : List Char} (hw : Token.IsDigits whole)
    (hf : Token.IsDigits fraction) :
    first? (whole ++ '.' :: fraction) = some (float, (whole ++ '.' :: fraction).length) := by
  have hlen : length float (whole ++ '.' :: fraction) = (whole ++ '.' :: fraction).length := by
    have hcount : digitCount (whole ++ '.' :: fraction) = whole.length := by
      rw [digitCount_append_stop (by decide), digitCount_of_isDigits hw]
    have hw' : whole.length ≠ 0 := by simpa using hw.1
    have hf' : fraction.length ≠ 0 := by simpa using hf.1
    simp only [length, hcount, List.drop_left, digitCount_of_isDigits hf]
    rw [if_neg (by simp [hw.1, hf.1]), List.length_append, List.length_cons]
    omega
  have hall : all = (beforeLabel ++ [label, string])
      ++ float :: (integer :: Mark.all.map mark) := rfl
  have hpos : 0 < length float (whole ++ '.' :: fraction) := by
    rw [hlen, List.length_append, List.length_cons]
    omega
  rw [← hlen]
  refine first?_eq_some hall ?_ hpos
  intro k hk
  obtain ⟨c, rest, rfl⟩ := List.exists_cons_of_ne_nil hw.1
  exact length_eq_zero (begins_eq_false_of_isDecimalDigit (hw.2 c (by simp)) k hk) _

/-! ## Strings -/

/-- A string ends with the first quote that no backslash stands before. -/
theorem stringTail?_of_isQuotable {cs : List Char} (h : Token.IsQuotable cs) (rest : List Char) :
    stringTail? (cs ++ '"' :: rest) = some (cs.length + 1) := by
  induction h with
  | nil => simp [stringTail?]
  | plain hq hn hb _ ih =>
    rw [List.cons_append, stringTail?_cons_of_ne hq hn hb, ih]
    rfl
  | @escape c cs hn _ ih =>
    rw [List.cons_append, List.cons_append, stringTail?, ih]
    · rfl
    · exact hn

/-- A string is found by its quotes, whatever follows it. -/
theorem first?_string {cs : List Char} (h : Token.IsQuotable cs) (rest : List Char) :
    first? ('"' :: cs ++ ['"'] ++ rest) = some (string, ('"' :: cs ++ ['"']).length) := by
  have hlen : length string ('"' :: (cs ++ '"' :: rest)) = cs.length + 1 + 1 := by
    simp [length, stringTail?_of_isQuotable h]
  have hall : all = (beforeLabel ++ [label])
      ++ string :: ([float, integer] ++ Mark.all.map mark) := rfl
  have hbegins : ∀ l ∈ beforeLabel ++ [label], l.begins '"' = false := by decide
  have hshape : '"' :: cs ++ ['"'] ++ rest = '"' :: (cs ++ '"' :: rest) := by simp
  have hfirst := first?_eq_some hall
    (fun k hk => length_eq_zero (hbegins k hk) (cs ++ '"' :: rest)) (by rw [hlen]; omega)
  rw [hshape, hfirst, hlen]
  simp

end LexicalClass

/-! ## Tokens -/

/-- Nothing, or a space and whatever follows it. -/
def Spaced (cs : List Char) : Prop := cs = [] ∨ ∃ rest, cs = ' ' :: rest

theorem spaced_flatMap (ts : List Token) : Spaced (ts.flatMap fun t => ' ' :: t.spelling) := by
  cases ts with
  | nil => exact .inl rfl
  | cons t ts => exact .inr ⟨_, rfl⟩

theorem Token.written_cons (t : Token) (ts : List Token) :
    written (t :: ts) = t.spelling ++ ts.flatMap fun t => ' ' :: t.spelling := by
  unfold written
  induction ts generalizing t with
  | nil => simp
  | cons u ts ih =>
    rw [List.map_cons, List.map_cons, List.intercalate_cons_cons, ← List.map_cons, ih,
      List.append_assoc]
    rfl

namespace Token.Lexable

variable {t : Token}

open LexicalClass

theorem first?_append_of_spaced {cs rest : List Char} {l : LexicalClass} {n : Nat}
    (h : first? cs = some (l, n)) (hl : l.crosses ' ' = false) (hrest : Spaced rest) :
    first? (cs ++ rest) = some (l, n) := by
  rcases hrest with rfl | ⟨rest, rfl⟩
  · rwa [List.append_nil]
  · exact first?_append_space h hl rest

/-- The spelling of a token is found as a text of a class that stands for the token. -/
theorem first?_spelling (h : t.Lexable) {rest : List Char} (hrest : Spaced rest) :
    ∃ l, first? (t.spelling ++ rest) = some (l, t.spelling.length)
      ∧ l.token? t.spelling = some t := by
  cases h with
  | @ident name h hk hb ho hp =>
    have hne : ∀ s ∈ operatorSpellings ++ prefixSpellings, s.toList ≠ name.toList := by
      intro s hs he
      rw [String.toList_inj] at he
      subst he
      exact (List.mem_append.1 hs).elim ho hp
    refine ⟨label, first?_append_of_spaced (first?_label h hne) rfl hrest, ?_⟩
    rw [spelling, token?, String.ofList_toList, labelToken_of_not_mem hk hb]
  | keyword k =>
    have hword : k.word ∈ Keyword.all.map Keyword.word := by cases k <;> decide
    refine ⟨label, first?_append_of_spaced (first?_word (List.mem_append_left _ hword)) rfl
      hrest, ?_⟩
    cases k <;> rfl
  | @boolean word h =>
    refine ⟨label, first?_append_of_spaced (first?_word (List.mem_append_right _ h)) rfl hrest, ?_⟩
    revert word
    decide
  | integer h =>
    exact ⟨.integer, first?_append_of_spaced (first?_digits h) rfl hrest,
      congrArg (some ∘ Token.integer) String.ofList_toList⟩
  | @float text whole fraction ht hw hf =>
    refine ⟨.float, ?_, congrArg (some ∘ Token.float) String.ofList_toList⟩
    have hfirst := first?_fraction hw hf
    rw [← ht] at hfirst
    exact first?_append_of_spaced hfirst rfl hrest
  | @string raw h =>
    refine ⟨.string, first?_string h rest, ?_⟩
    simp [spelling, token?]
  | @operator s h =>
    have hfirst : ∀ s ∈ operatorSpellings,
        first? s.toList = some (.operator s, s.toList.length) := by decide
    have hcross : ∀ s ∈ operatorSpellings, crosses (.operator s) ' ' = false := by decide
    exact ⟨.operator s, first?_append_of_spaced (hfirst s h) (hcross s h) hrest, rfl⟩
  | @prefixOperator s h =>
    have hfirst : ∀ s ∈ prefixSpellings,
        first? s.toList = some (.prefixOperator s, s.toList.length) := by decide
    have hcross : ∀ s ∈ prefixSpellings, crosses (.prefixOperator s) ' ' = false := by decide
    exact ⟨.prefixOperator s, first?_append_of_spaced (hfirst s h) (hcross s h) hrest, rfl⟩
  | mark m =>
    have hfirst : first? [m.symbol] = some (.mark m, 1) := by
      have htable : ∀ m ∈ Mark.all, first? [m.symbol] = some (.mark m, 1) := by decide
      refine htable m ?_
      rcases m with _ | _ | _ | _ | (_ | _ | _) | (_ | _ | _) <;> decide
    exact ⟨.mark m, first?_append_of_spaced hfirst rfl hrest, rfl⟩
  | newline => exact ⟨.newline, first?_append_of_spaced rfl rfl hrest, rfl⟩

theorem exists_spelling_eq_cons (h : t.Lexable) :
    ∃ c cs, t.spelling = c :: cs ∧ LexicalClass.isBlank c = false := by
  obtain ⟨l, hfirst, htoken⟩ := h.first?_spelling (.inl rfl)
  rw [List.append_nil] at hfirst
  cases hs : t.spelling with
  | nil =>
    rw [hs] at hfirst
    cases hfirst
  | cons c cs =>
    refine ⟨c, cs, rfl, ?_⟩
    rw [hs] at hfirst htoken
    cases hc : isBlank c with
    | false => rfl
    | true =>
      -- blanks begin with characters of their own, and stand for no token
      have heq := eq_of_begins (k := blank) (by decide) rfl (mem_of_first? hfirst).1 hc
        (begins_of_first? hfirst)
      rw [heq] at htoken
      cases htoken

end Token.Lexable

/-! ## Texts -/

namespace Lexer

variable {file : String} {t : Token}

/-- Lexing goes on behind the spelling of a token. -/
theorem scan_spelling (h : t.Lexable) {rest : List Char} (hrest : Spaced rest) (place : Place) :
    scan file place 0 (t.spelling ++ rest) = do
      let us ← scan file (place.past t.spelling) 0 rest
      return t :: us := by
  obtain ⟨l, hfirst, htoken⟩ := h.first?_spelling hrest
  obtain ⟨c, cs, hs, -⟩ := h.exists_spelling_eq_cons
  rw [hs, List.cons_append] at hfirst
  have hscan := scan_cons file place hfirst
  rw [← List.cons_append, ← hs, List.take_left, List.drop_left, htoken] at hscan
  exact hscan

/-- A space in front of a token is passed over. -/
theorem scan_space (h : t.Lexable) (rest : List Char) (place : Place) :
    scan file place 0 (' ' :: (t.spelling ++ rest))
      = scan file (place.after ' ') 0 (t.spelling ++ rest) := by
  obtain ⟨c, cs, hs, hc⟩ := h.exists_spelling_eq_cons
  have hlen : LexicalClass.length .blank (' ' :: (t.spelling ++ rest)) = 1 := by
    have hspace : LexicalClass.isBlank ' ' = true := rfl
    simp [LexicalClass.length, hs, hc, hspace]
  have hall : LexicalClass.all = [] ++ .blank :: LexicalClass.all.tail := rfl
  have hfirst := LexicalClass.first?_eq_some hall (fun k hk => by cases hk)
    (show 0 < LexicalClass.length .blank (' ' :: (t.spelling ++ rest)) by omega)
  rw [hlen] at hfirst
  rw [scan_cons file place hfirst]
  simp [LexicalClass.token?, Place.past]

/-- Tokens with a space in front of each are read back. -/
theorem scan_spaced {ts : List Token} (h : ∀ t ∈ ts, t.Lexable) (place : Place) :
    scan file place 0 (ts.flatMap fun t => ' ' :: t.spelling) = .ok ts := by
  induction ts generalizing place with
  | nil => rfl
  | cons t ts ih =>
    obtain ⟨ht, hts⟩ := List.forall_mem_cons.1 h
    rw [List.flatMap_cons, List.cons_append, scan_space ht, scan_spelling ht (spaced_flatMap ts),
      ih hts]
    rfl

end Lexer

/-- Tokenizing the text of lexable tokens that are written with single spaces between them gives
the tokens back. -/
theorem tokenize_written (file : String) (line : Nat) {ts : List Token}
    (h : ∀ t ∈ ts, t.Lexable) : tokenize file line (Token.written ts) = .ok ts := by
  cases ts with
  | nil => rfl
  | cons t ts =>
    obtain ⟨ht, hts⟩ := List.forall_mem_cons.1 h
    unfold tokenize
    rw [Token.written_cons, Lexer.scan_spelling ht (spaced_flatMap ts), Lexer.scan_spaced hts]
    rfl

/-- A label that begins like an operator, a mark behind the operator that it would continue, and an
escaped quote are read back. -/
theorem tokenize_written_escape :
    let ts : List Token := [.keyword .let', .ident "android", .keyword .be, .prefixOperator "!",
      .mark .equals, .float "1.5", .operator "minus", .boolean "true", .integer "20",
      .string "a\\\"b", .newline]
    (∀ t ∈ ts, t.Lexable)
      ∧ Token.written ts = "let android be ! = 1.5 minus true 20 \"a\\\"b\" \n".toList
      ∧ tokenize "orders.zolang" 1 (Token.written ts) = .ok ts := by
  intro ts
  have h : ∀ t ∈ ts, t.Lexable := by
    simp only [ts, List.forall_mem_cons]
    refine ⟨.keyword _, .ident (by decide) (by decide) (by decide) (by decide) (by decide),
      .keyword _, .prefixOperator (by decide), .mark _,
      @Token.Lexable.float _ ['1'] ['5'] rfl (by decide) (by decide),
      .operator (by decide), .boolean (by decide), .integer (by decide), .string ?_, .newline,
      List.forall_mem_nil _⟩
    exact .plain (by decide) (by decide) (by decide) (.escape (by decide)
      (.plain (by decide) (by decide) (by decide) .nil))
  exact ⟨h, rfl, tokenize_written "orders.zolang" 1 h⟩

end ModelScript
