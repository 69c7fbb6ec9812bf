import ModelScript.Proofs.Token.Spelling

/-!
# The longest text wins

The lexer takes the first class that fits.  `IsText` says what the texts of a class are and
`MayPrecede` what can stand behind one, and `Fits l cs n` that the first `n` characters of `cs` are
such a text.  Among all these texts, of all classes, the lexer takes a longest one:

    first? cs = some (l, n)  ↔  n is the largest length that any class fits with,
                                 and l the first class that fits with it        (found_iff_longest)

`LexicalClass.length` is the largest length of its own class (`fits_length`, `le_length_of_fits`).
So all depends on the order of the classes: one that fits takes at least as much as any class behind
it (`Outlasts`).  Most classes begin with different characters; `prevails` lists why the others are
in the right order, and the table of the ASCII characters is searched for pairs that it leaves out.
-/

namespace ModelScript.LexicalClass

/-! ## Texts of a class -/

/-- The texts of a class. -/
def IsText : LexicalClass → List Char → Prop
  | blank, text => text ≠ [] ∧ ∀ c ∈ text, isBlank c = true
  | comment, text => ∃ body, text = '#' :: body ∧ '\n' ∉ body
  | newline, text => text = ['\n']
  | operator s, text | prefixOperator s, text => text = s.toList
  | label, text => Token.IsLabel text
  | string, text => ∃ body, text = '"' :: body ++ ['"'] ∧ Token.IsQuotable body
  | float, text => ∃ whole fraction, text = whole ++ '.' :: fraction ∧ Token.IsDigits whole
      ∧ Token.IsDigits fraction
  | integer, text => Token.IsDigits text
  | mark m, text => text = [m.symbol]

/-- What can stand behind a text of a class: an operator of letters ends where no letter, numeric
character or underscore follows, and `!` is none in front of `=`. -/
def MayPrecede : LexicalClass → List Char → Prop
  | operator s, rest | prefixOperator s, rest => ∀ c ∈ rest.head?,
      (s.toList.all Char.isAlpha = true → Text.isWordCharacter c = false) ∧ (s = "!" → c ≠ '=')
  | _, _ => True

/-- The first `n` characters are a text of a class that can stand there. -/
structure Fits (l : LexicalClass) (cs : List Char) (n : Nat) : Prop where
  le : n ≤ cs.length
  text : l.IsText (cs.take n)
  stop : l.MayPrecede (cs.drop n)

variable {l k : LexicalClass} {cs : List Char} {n : Nat}

theorem Fits.of_append {text rest : List Char} (ht : l.IsText text) (hr : l.MayPrecede rest) :
    l.Fits (text ++ rest) text.length := by
  refine ⟨by simp, ?_, ?_⟩
  · rwa [List.take_left]
  · rwa [List.drop_left]

theorem Fits.exists_append (h : l.Fits cs n) : ∃ text rest, cs = text ++ rest
    ∧ text.length = n ∧ l.IsText text ∧ l.MayPrecede rest :=
  ⟨cs.take n, cs.drop n, (List.take_append_drop n cs).symm, List.length_take_of_le h.le, h.text,
    h.stop⟩

/-! ## Spellings -/

/-- What a class refuses behind it is what its spelling refuses there. -/
theorem head?_any_refusedAfter (s : String) (rest : List Char) :
    rest.head?.any (refusedAfter s.toList) = false ↔ ∀ c ∈ rest.head?,
      (s.toList.all Char.isAlpha = true → Text.isWordCharacter c = false) ∧ (s = "!" → c ≠ '=') := by
  have hbang : s.toList = ['!'] ↔ s = "!" := by rw [← String.toList_inj]; rfl
  cases rest with
  | nil => simp
  | cons c rest =>
    simp only [List.head?_cons, Option.any_some, Option.mem_def, Option.some.injEq,
      forall_eq']
    unfold refusedAfter
    by_cases hword : s.toList.all Char.isAlpha = true
    · have hne : s ≠ "!" := by
        rintro rfl
        revert hword
        decide
      simp [hword, hne]
    · by_cases hs : s = "!"
      · subst hs
        simp
      · have hlist : s.toList ≠ ['!'] := fun h => hs (hbang.1 h)
        simp [hword, hs, hlist]

theorem spelled_append {s : String} {rest : List Char}
    (hr : rest.head?.any (refusedAfter s.toList) = false) :
    spelled s.toList (refusedAfter s.toList) (s.toList ++ rest) = s.toList.length := by
  unfold spelled
  rw [if_pos]
  rw [List.drop_left, hr, List.isPrefixOf_iff_prefix.2 (List.prefix_append _ _)]
  rfl

theorem exists_append_of_spelled {spelling : List Char} {stop : Char → Bool}
    (h : 0 < spelled spelling stop cs) : spelled spelling stop cs = spelling.length
      ∧ ∃ rest, cs = spelling ++ rest ∧ rest.head?.any stop = false := by
  unfold spelled at h ⊢
  split at h
  · next hfits =>
    rw [if_pos hfits]
    obtain ⟨hbegins, hstop⟩ := Bool.and_eq_true_iff.1 hfits
    obtain ⟨rest, rfl⟩ := List.isPrefixOf_iff_prefix.1 hbegins
    rw [List.drop_left] at hstop
    exact ⟨rfl, rest, rfl, by simpa using hstop⟩
  · omega

/-! ## Runs of characters -/

theorem take_takeWhile (p : Char → Bool) (cs : List Char) :
    cs.take (cs.takeWhile p).length = cs.takeWhile p :=
  (List.prefix_iff_eq_take.1 (List.takeWhile_prefix p)).symm

/-- A run goes on at least as long as characters that belong to it. -/
theorem length_le_takeWhile {p : Char → Bool} {text : List Char} (h : ∀ c ∈ text, p c = true)
    (rest : List Char) : text.length ≤ ((text ++ rest).takeWhile p).length := by
  rw [List.takeWhile_append_of_pos h, List.length_append]
  omega

/-- A run ends with the text in front of a character that does not belong to it. -/
theorem takeWhile_le_length {p : Char → Bool} {rest : List Char} (h : rest.head?.any p = false)
    (text : List Char) : ((text ++ rest).takeWhile p).length ≤ text.length := by
  cases rest with
  | nil =>
    rw [List.append_nil]
    exact (List.takeWhile_prefix p).length_le
  | cons c rest =>
    rw [takeWhile_append_stop h]
    exact (List.takeWhile_prefix p).length_le

theorem isDigits_take_digitCount (h : 0 < digitCount cs) :
    Token.IsDigits (cs.take (digitCount cs)) := by
  unfold digitCount at h ⊢
  rw [take_takeWhile]
  exact ⟨List.length_pos_iff.1 h, fun _ => List.mem_takeWhile_imp⟩

theorem digitCount_append_le {text : List Char} (h : Token.IsDigits text) (rest : List Char) :
    text.length ≤ digitCount (text ++ rest) :=
  length_le_takeWhile h.2 rest

/-! ## Strings -/

/-- What stands in front of the closing quote can stand between quotes. -/
theorem exists_isQuotable_of_stringTail? {m : Nat} (h : stringTail? cs = some m) :
    ∃ body rest, cs = body ++ '"' :: rest ∧ m = body.length + 1 ∧ Token.IsQuotable body := by
  fun_induction stringTail? cs generalizing m with
  | case1 => cases h
  | case2 rest =>
    cases h
    exact ⟨[], rest, rfl, rfl, .nil⟩
  | case3 => cases h
  | case4 => cases h
  | case5 => cases h
  | case6 c rest hc ih =>
    obtain ⟨m, hm, rfl⟩ := Option.map_eq_some_iff.1 h
    obtain ⟨body, rest, rfl, rfl, hbody⟩ := ih hm
    exact ⟨'\\' :: c :: body, rest, rfl, rfl, .escape (fun h => hc h) hbody⟩
  | case7 c rest hq hn hb1 hb2 hb3 ih =>
    obtain ⟨m, hm, rfl⟩ := Option.map_eq_some_iff.1 h
    obtain ⟨body, rest, rfl, rfl, hbody⟩ := ih hm
    refine ⟨c :: body, rest, rfl, rfl, .plain (fun h => hq h) (fun h => hn h) ?_ hbody⟩
    intro hb
    cases body with
    | nil => exact hb3 _ _ hb rfl
    | cons d body => exact hb3 _ _ hb rfl

/-! ## Fractions -/

theorem exists_append_of_float (h : 0 < length float cs) : ∃ whole fraction rest,
    cs = whole ++ '.' :: (fraction ++ rest) ∧ Token.IsDigits whole ∧ Token.IsDigits fraction
      ∧ length float cs = (whole ++ '.' :: fraction).length ∧ digitCount cs = whole.length := by
  have hsplit := List.take_append_drop (digitCount cs) cs
  have hwhole : (cs.take (digitCount cs)).length = digitCount cs :=
    List.length_take_of_le (digitCount_le cs)
  simp only [length] at h ⊢
  split at h
  · next rest hdrop =>
    split at h
    · omega
    · next hcounts =>
      simp only [Bool.or_eq_true, decide_eq_true_eq, not_or] at hcounts
      have hfraction : (rest.take (digitCount rest)).length = digitCount rest :=
        List.length_take_of_le (digitCount_le rest)
      refine ⟨cs.take (digitCount cs), rest.take (digitCount rest), rest.drop (digitCount rest),
        ?_, isDigits_take_digitCount (by omega), isDigits_take_digitCount (by omega), ?_,
        hwhole.symm⟩
      · rw [List.take_append_drop, ← hdrop, hsplit]
      · rw [if_neg (by simp [hcounts]), List.length_append, List.length_cons, hwhole, hfraction]
        omega
  · omega

/-! ## How much a class takes -/

theorem Fits.of_spelled {s : String} (h : 0 < spelled s.toList (refusedAfter s.toList) cs) :
    (operator s).Fits cs (spelled s.toList (refusedAfter s.toList) cs) := by
  obtain ⟨hlen, rest, rfl, hrest⟩ := exists_append_of_spelled h
  rw [hlen]
  exact .of_append rfl ((head?_any_refusedAfter s rest).1 hrest)

theorem exists_cons_of_length (h : 0 < l.length cs) :
    ∃ c rest, cs = c :: rest ∧ l.begins c = true := by
  have hle := length_le l cs
  cases cs with
  | nil =>
    rw [List.length_nil] at hle
    omega
  | cons c rest =>
    refine ⟨c, rest, rfl, ?_⟩
    by_contra hb
    rw [length_eq_zero (Bool.eq_false_iff.2 hb)] at h
    omega

/-- A class that takes some text takes one of its own. -/
theorem fits_length (h : 0 < l.length cs) : l.Fits cs (l.length cs) := by
  have hmark {c : Char} {rest : List Char} : (c :: rest).take 1 = [c] := rfl
  cases l with
  | operator s => exact .of_spelled h
  | prefixOperator s =>
    obtain ⟨hle, htext, hstop⟩ := Fits.of_spelled (s := s) h
    exact ⟨hle, htext, hstop⟩
  | blank =>
    refine ⟨length_le _ _, ?_, trivial⟩
    simp only [length] at h ⊢
    rw [take_takeWhile]
    exact ⟨List.length_pos_iff.1 h, fun _ => List.mem_takeWhile_imp⟩
  | integer => exact ⟨length_le _ _, isDigits_take_digitCount h, trivial⟩
  | float =>
    refine ⟨length_le _ _, ?_, trivial⟩
    obtain ⟨whole, fraction, rest, hcs, hw, hf, hlen, -⟩ := exists_append_of_float h
    have hshape : whole ++ '.' :: (fraction ++ rest) = (whole ++ '.' :: fraction) ++ rest := by simp
    rw [hlen, hcs, hshape, List.take_left]
    exact ⟨whole, fraction, rfl, hw, hf⟩
  | comment =>
    obtain ⟨c, rest, rfl, hbegins⟩ := exists_cons_of_length h
    obtain rfl : c = '#' := by simpa [begins] using hbegins
    refine ⟨length_le _ _, ⟨rest.takeWhile (· ≠ '\n'), ?_, ?_⟩, trivial⟩
    · simp only [length]
      rw [List.take_succ_cons, take_takeWhile]
    · intro hmem
      simpa using List.mem_takeWhile_imp hmem
  | newline =>
    obtain ⟨c, rest, rfl, hbegins⟩ := exists_cons_of_length h
    obtain rfl : c = '\n' := by simpa [begins] using hbegins
    exact ⟨length_le _ _, hmark, trivial⟩
  | label =>
    obtain ⟨c, rest, rfl, hc⟩ := exists_cons_of_length h
    have hc : beginsLabel c = true := hc
    refine ⟨length_le _ _, ⟨c, rest.takeWhile continuesLabel, ?_, hc, ?_⟩, trivial⟩
    · simp only [length, if_pos hc]
      rw [List.take_succ_cons, take_takeWhile]
    · exact fun _ => List.mem_takeWhile_imp
  | string =>
    obtain ⟨c, rest, rfl, hbegins⟩ := exists_cons_of_length h
    obtain rfl : c = '"' := by simpa [begins] using hbegins
    cases hs : stringTail? rest with
    | none => simp [length, hs] at h
    | some m =>
      have hlen : length string ('"' :: rest) = m + 1 := by simp [length, hs]
      refine ⟨length_le _ _, ?_, trivial⟩
      obtain ⟨body, rest, rfl, rfl, hbody⟩ := exists_isQuotable_of_stringTail? hs
      have hshape : '"' :: (body ++ '"' :: rest) = ('"' :: body ++ ['"']) ++ rest := by simp
      have hcount : body.length + 1 + 1 = ('"' :: body ++ ['"']).length := by simp
      rw [hlen, hshape, hcount, List.take_left]
      exact ⟨body, rfl, hbody⟩
  | mark m =>
    obtain ⟨c, rest, rfl, hbegins⟩ := exists_cons_of_length h
    obtain rfl : c = m.symbol := by simpa [begins] using hbegins
    have hlen : length (mark m) (m.symbol :: rest) = 1 := by simp [length]
    rw [hlen]
    exact ⟨by simp, hmark, trivial⟩

/-- A class takes as much as it can. -/
theorem le_length_of_fits (h : l.Fits cs n) : n ≤ l.length cs := by
  obtain ⟨text, rest, rfl, rfl, htext, hrest⟩ := h.exists_append
  cases l with
  | operator s =>
    obtain rfl : text = s.toList := htext
    exact Nat.le_of_eq (spelled_append ((head?_any_refusedAfter s rest).2 hrest)).symm
  | prefixOperator s =>
    obtain rfl : text = s.toList := htext
    exact Nat.le_of_eq (spelled_append ((head?_any_refusedAfter s rest).2 hrest)).symm
  | blank => exact length_le_takeWhile htext.2 rest
  | comment =>
    obtain ⟨body, rfl, hbody⟩ := htext
    have hin : ∀ c ∈ body, decide (c ≠ '\n') = true :=
      fun c hc => decide_eq_true fun he => hbody (he ▸ hc)
    have hrun := length_le_takeWhile hin rest
    simp only [length, List.cons_append, List.length_cons]
    omega
  | newline =>
    obtain rfl : text = ['\n'] := htext
    exact Nat.le_refl 1
  | label =>
    obtain ⟨c, body, rfl, hc, hbody⟩ := htext
    have hrun := length_le_takeWhile hbody rest
    simp only [length, List.cons_append, List.length_cons, if_pos hc]
    omega
  | string =>
    obtain ⟨body, rfl, hbody⟩ := htext
    have hshape : '"' :: body ++ ['"'] ++ rest = '"' :: (body ++ '"' :: rest) := by simp
    rw [hshape]
    simp [length, stringTail?_of_isQuotable hbody]
  | float =>
    obtain ⟨whole, fraction, rfl, hw, hf⟩ := htext
    have hshape : whole ++ '.' :: fraction ++ rest = whole ++ '.' :: (fraction ++ rest) := by simp
    have hwhole : digitCount (whole ++ '.' :: (fraction ++ rest)) = whole.length := by
      rw [digitCount_append_stop (by decide), digitCount_of_isDigits hw]
    have hfraction := digitCount_append_le hf rest
    have hcounts : ¬ (decide (whole.length = 0)
        || decide (digitCount (fraction ++ rest) = 0)) = true := by
      have hpos := List.length_pos_iff.2 hw.1
      have hpos' := List.length_pos_iff.2 hf.1
      simp only [Bool.or_eq_true, decide_eq_true_eq]
      omega
    rw [hshape]
    simp only [length, hwhole, List.drop_left]
    rw [if_neg hcounts, List.length_append, List.length_cons]
    omega
  | integer => exact digitCount_append_le htext rest
  | mark m =>
    obtain rfl : text = [m.symbol] := htext
    simp [length]

/-! ## The order of the classes -/

/-- A class that fits takes at least as much as another one. -/
def Outlasts (l k : LexicalClass) : Prop := ∀ cs, 0 < l.length cs → k.length cs ≤ l.length cs

/-- The only spelling of a class, if it has only one. -/
def spelling? : LexicalClass → Option (List Char)
  | operator s | prefixOperator s => some s.toList
  | mark m => some [m.symbol]
  | _ => none

/-- Why one class outlasts another that begins with the same character: a word ends where a label
does, a fraction begins with a whole number, and no spelling is part of one that is tried later. -/
def prevails : LexicalClass → LexicalClass → Bool
  | operator s, label | prefixOperator s, label => s.toList.all Char.isAlpha
  | float, integer => true
  | l, k =>
    match l.spelling?, k.spelling? with
    | some t, some u => !t.isPrefixOf u || u.length ≤ t.length
    | _, _ => false

theorem prefix_of_spelling? {t : List Char} (hl : l.spelling? = some t) (h : 0 < l.length cs) :
    t <+: cs ∧ l.length cs = t.length := by
  have htext := (fits_length h).text
  have hle := length_le l cs
  have heq : cs.take (l.length cs) = t := by
    cases l with
    | operator s => exact htext.trans (Option.some.inj hl)
    | prefixOperator s => exact htext.trans (Option.some.inj hl)
    | mark m => exact htext.trans (Option.some.inj hl)
    | _ => cases hl
  refine ⟨heq ▸ List.take_prefix _ cs, ?_⟩
  rw [← heq, List.length_take_of_le hle]

theorem outlasts_of_spelling? {t u : List Char} (hl : l.spelling? = some t)
    (hk : k.spelling? = some u) (h : t <+: u → u.length ≤ t.length) : l.Outlasts k := by
  intro cs hpos
  rcases Nat.eq_zero_or_pos (k.length cs) with hzero | hkpos
  · omega
  · obtain ⟨ht, hlen⟩ := prefix_of_spelling? hl hpos
    obtain ⟨hu, hklen⟩ := prefix_of_spelling? hk hkpos
    rw [hlen, hklen]
    rcases List.prefix_or_prefix_of_prefix ht hu with htu | hut
    · exact h htu
    · exact hut.length_le

theorem length_label_le (cs : List Char) :
    length label cs ≤ (cs.takeWhile continuesLabel).length := by
  cases cs with
  | nil => exact Nat.le_refl 0
  | cons c rest =>
    simp only [length]
    split
    · next hc =>
      rw [List.takeWhile_cons_of_pos (continuesLabel_of_beginsLabel hc), List.length_cons]
    · exact Nat.zero_le _

/-- A word that no word character follows is as long as the label that is there. -/
theorem length_label_le_of_spelled {s : String} (hs : s.toList.all Char.isAlpha = true)
    (h : 0 < spelled s.toList (refusedAfter s.toList) cs) :
    length label cs ≤ spelled s.toList (refusedAfter s.toList) cs := by
  obtain ⟨hlen, rest, rfl, hrest⟩ := exists_append_of_spelled h
  have hstop : rest.head?.any continuesLabel = false := by
    cases rest with
    | nil => rfl
    | cons c rest =>
      have hword : Text.isWordCharacter c = false := by
        simpa [refusedAfter, hs] using hrest
      show continuesLabel c = false
      cases hc : continuesLabel c with
      | false => rfl
      | true =>
        rw [isWordCharacter_of_continuesLabel hc] at hword
        cases hword
  rw [hlen]
  exact Nat.le_trans (length_label_le _) (takeWhile_le_length hstop _)

theorem outlasts_of_prevails (h : l.prevails k = true) : l.Outlasts k := by
  unfold prevails at h
  split at h
  · next s => exact fun cs hpos => length_label_le_of_spelled h hpos
  · next s => exact fun cs hpos => length_label_le_of_spelled h hpos
  · intro cs hpos
    obtain ⟨whole, fraction, rest, -, -, -, hlen, hcount⟩ := exists_append_of_float hpos
    have hwhole : length integer cs = whole.length := hcount
    rw [hlen, hwhole, List.length_append]
    omega
  · split at h
    · next t u ht hu =>
      refine outlasts_of_spelling? ht hu fun htu => ?_
      simpa [List.isPrefixOf_iff_prefix.2 htu] using h
    · cases h

/-- The characters beyond ASCII begin only numbers. -/
theorem mem_of_begins {c : Char} (hc : 128 ≤ c.toNat) (hl : l ∈ all) (h : l.begins c = true) :
    l ∈ [float, integer] := by
  have hall : all = (beforeLabel ++ [label, string]) ++ ([float, integer] ++ Mark.all.map mark) := rfl
  have hmarks : ∀ m ∈ Mark.all, m.symbol.toNat < 128 := by decide
  rw [hall, List.mem_append] at hl
  rcases hl with hl | hl
  · have := toNat_lt_of_begins hl h
    omega
  rcases List.mem_append.1 hl with hl | hl
  · exact hl
  · obtain ⟨m, hm, rfl⟩ := List.mem_map.1 hl
    obtain rfl : c = m.symbol := by simpa [begins] using h
    have := hmarks m hm
    omega

/-- Of two classes that begin with the same character the first one prevails. -/
theorem pairwise_prevails (c : Char) :
    all.Pairwise fun l k => l.begins c = true → k.begins c = true → l.prevails k = true := by
  by_cases hc : c.toNat < 128
  · have htable : ∀ n < 128, (all.filter (·.begins (Char.ofNat n))).Pairwise
        fun l k => l.prevails k = true := by decide +kernel
    have := List.pairwise_filter.1 (htable c.toNat hc)
    rwa [Char.ofNat_toNat] at this
  · have hnumbers : all.Pairwise fun l k =>
        l ∈ [float, integer] → k ∈ [float, integer] → l.prevails k = true := by decide
    refine hnumbers.imp_of_mem fun hl hk h hlc hkc => ?_
    exact h (mem_of_begins (Nat.not_lt.1 hc) hl hlc) (mem_of_begins (Nat.not_lt.1 hc) hk hkc)

/-- Every class outlasts those behind it. -/
theorem pairwise_outlasts : all.Pairwise Outlasts := by
  rw [List.pairwise_iff_forall_sublist]
  intro l k hlk cs hpos
  rcases Nat.eq_zero_or_pos (k.length cs) with hzero | hkpos
  · omega
  · obtain ⟨c, rest, rfl, hl⟩ := exists_cons_of_length hpos
    obtain ⟨d, rest', hcons, hk⟩ := exists_cons_of_length hkpos
    obtain ⟨rfl, rfl⟩ := List.cons.inj hcons
    have hprevails := List.pairwise_iff_forall_sublist.1 (pairwise_prevails c) hlk hl hk
    exact outlasts_of_prevails hprevails _ hpos

/-! ## The class that is found -/

/-- `l` is the first of the classes that fit with the largest length, which is `n`. -/
structure Longest (cs : List Char) (l : LexicalClass) (n : Nat) : Prop where
  mem : l ∈ all
  pos : 0 < n
  fits : l.Fits cs n
  longest : ∀ k ∈ all, ∀ m, k.Fits cs m → m ≤ n
  first : ∀ k ∈ all, k.Fits cs n → all.idxOf l ≤ all.idxOf k

theorem longest_of_first? (h : first? cs = some (l, n)) : Longest cs l n := by
  have hfound := h
  unfold first? at hfound
  obtain ⟨front, l', back, hall, hl, hfront⟩ := List.findSome?_eq_some_iff.1 hfound
  obtain ⟨hmem, hlen, hpos⟩ := mem_of_first? h
  obtain rfl : l' = l := by
    split at hl
    · cases hl
    · cases hl
      rfl
  have hzero : ∀ k ∈ front, k.length cs = 0 := by
    intro k hk
    by_contra hne
    simpa [hne] using hfront k hk
  have hafter := pairwise_outlasts
  rw [hall, List.pairwise_append, List.pairwise_cons] at hafter
  have hidx : all.idxOf l' = front.length := by
    have hnot : l' ∉ front := fun hmem => by
      have := hzero l' hmem
      omega
    rw [hall, List.idxOf_append_of_notMem hnot, List.idxOf_cons_self, Nat.add_zero]
  refine ⟨hmem, hpos, hlen ▸ fits_length (hlen.symm ▸ hpos), ?_, ?_⟩
  · intro k hk m hm
    have hle := le_length_of_fits hm
    rw [hall, List.mem_append, List.mem_cons] at hk
    rcases hk with hk | rfl | hk
    · have := hzero k hk
      omega
    · omega
    · have := hafter.2.1.1 k hk cs (by omega)
      omega
  · intro k hk hfits
    have hknot : k ∉ front := fun hmem => by
      have := hzero k hmem
      have := le_length_of_fits hfits
      omega
    rw [hidx, hall, List.idxOf_append_of_notMem hknot]
    omega

theorem Longest.unique {m : Nat} (h : Longest cs l n) (h' : Longest cs k m) : l = k ∧ n = m := by
  obtain rfl : n = m :=
    Nat.le_antisymm (h'.longest l h.mem n h.fits) (h.longest k h'.mem m h'.fits)
  refine ⟨?_, rfl⟩
  exact (List.idxOf_inj h.mem).1
    (Nat.le_antisymm (h.first k h'.mem h'.fits) (h'.first l h.mem h.fits))

theorem exists_first?_of_fits (hl : l ∈ all) (hpos : 0 < n) (h : l.Fits cs n) :
    ∃ k m, first? cs = some (k, m) := by
  cases hf : first? cs with
  | some found => exact ⟨found.1, found.2, rfl⟩
  | none =>
    unfold first? at hf
    have hlen := le_length_of_fits h
    have := List.findSome?_eq_none_iff.1 hf l hl
    rw [if_neg (by omega)] at this
    cases this

/-- At every offset of a text, the class and the length that the lexer finds are the first class
with a longest text among the texts of all classes there, and it finds something wherever any class
has a text that is not empty. -/
theorem found_iff_longest (source : List Char) (offset : Nat) :
    (∀ l n, first? (source.drop offset) = some (l, n) ↔ Longest (source.drop offset) l n) ∧
      ((∃ l n, first? (source.drop offset) = some (l, n)) ↔
        ∃ l ∈ all, ∃ n, 0 < n ∧ l.Fits (source.drop offset) n) := by
  refine ⟨fun l n => ⟨longest_of_first?, fun h => ?_⟩, ?_, ?_⟩
  · obtain ⟨k, m, hf⟩ := exists_first?_of_fits h.mem h.pos h.fits
    obtain ⟨rfl, rfl⟩ := (longest_of_first? hf).unique h
    exact hf
  · rintro ⟨l, n, hf⟩
    have h := longest_of_first? hf
    exact ⟨l, h.mem, n, h.pos, h.fits⟩
  · rintro ⟨l, hl, n, hpos, h⟩
    exact exists_first?_of_fits hl hpos h

end ModelScript.LexicalClass
