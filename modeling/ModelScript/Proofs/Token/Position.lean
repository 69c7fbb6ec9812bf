import Mathlib.Data.List.DropRight
import ModelScript.Proofs.Token.Lexing
import ModelScript.Proofs.Token.Longest

/-!
# Where the lexer stands

Reading tokens one by one moves the place of a stream by the characters that are read, blanks and
comments included.  `Place.Exact source p₀ p` says that the line and the column of `p` are those of
its offset, counted from `p₀` on.  Each call keeps the place exact, and it reads a line break
exactly if it gives the token of one, since no other class has a line break in its texts
(`LexicalClass.count_newline_of_isText`).  So after any number of calls

    place' is exact, and the `newline` tokens are the line breaks between the places
      (Stream.reads_exact)

and a call that fails names the place where no class fits, which it reaches by skipping blanks and
comments (`Lexer.SkipsTo`).
-/

namespace ModelScript

/-! ## Places -/

/-- Behind a line break the column counts from one, and otherwise from where it was. -/
theorem Place.column_past (p : Place) (text : List Char) :
    (p.past text).column = if '\n' ∈ text then 1 + (text.rtakeWhile (· ≠ '\n')).length
      else p.column + text.length := by
  induction text using List.reverseRecOn with
  | nil => rfl
  | append_singleton text c ih =>
    rw [past_append]
    show ((p.past text).after c).column = _
    unfold after
    by_cases hc : c = '\n'
    · rw [if_pos hc, if_pos (by simp [hc]), List.rtakeWhile_concat_neg _ _ _ (by simp [hc])]
      rfl
    · rw [if_neg hc, List.rtakeWhile_concat_pos _ _ _ (by simp [hc])]
      show (p.past text).column + 1 = _
      have hmem : '\n' ∈ text ++ [c] ↔ '\n' ∈ text := by simp [Ne.symm hc]
      rw [ih, List.length_append, List.length_append, List.length_singleton]
      by_cases h : '\n' ∈ text
      · rw [if_pos h, if_pos (hmem.2 h)]
        omega
      · rw [if_neg h, if_neg (mt hmem.1 h)]
        omega

/-- The place `p` of a text lies behind `p₀`, and its line and column are those of its offset. -/
structure Place.Exact (source : List Char) (p₀ p : Place) : Prop where
  le : p₀.position ≤ p.position
  le_length : p.position ≤ source.length
  line : p.line = p₀.line + (source.extract p₀.position p.position).count '\n'
  column : p.column = if '\n' ∈ source.extract p₀.position p.position
    then 1 + ((source.extract p₀.position p.position).rtakeWhile (· ≠ '\n')).length
    else p₀.column + (p.position - p₀.position)

theorem extract_append (source : List Char) {i j k : Nat} (hij : i ≤ j) (hjk : j ≤ k) :
    source.extract i k = source.extract i j ++ source.extract j k := by
  have hdrop : source.drop j = (source.drop i).drop (j - i) := by
    rw [List.drop_drop]
    congr 1
    omega
  simp only [List.extract_eq_take_drop]
  rw [hdrop, ← List.take_add]
  congr 1
  omega

theorem length_extract_of_le {source : List Char} {i j : Nat} (hij : i ≤ j)
    (hj : j ≤ source.length) : (source.extract i j).length = j - i := by
  rw [List.extract_eq_take_drop, List.length_take, List.length_drop]
  omega

theorem Place.position_past_extract {source : List Char} {p : Place} {j : Nat}
    (hij : p.position ≤ j) (hj : j ≤ source.length) :
    (p.past (source.extract p.position j)).position = j := by
  rw [position_past, length_extract_of_le hij hj]
  omega

theorem Place.exact_past {source : List Char} {p : Place} {j : Nat} (hij : p.position ≤ j)
    (hj : j ≤ source.length) : p.Exact source (p.past (source.extract p.position j)) := by
  have hposition := position_past_extract hij hj
  refine ⟨by omega, by omega, ?_, ?_⟩
  · rw [hposition, line_past]
  · rw [hposition, column_past, length_extract_of_le hij hj]

/-! ## Line breaks in texts of a class -/

namespace LexicalClass

variable {l : LexicalClass} {cs text : List Char} {n : Nat}

theorem not_mem_of_isQuotable (h : Token.IsQuotable text) : '\n' ∉ text := by
  induction h with
  | nil => exact List.not_mem_nil
  | plain hq hn hb _ ih =>
    rw [List.mem_cons, not_or]
    exact ⟨Ne.symm hn, ih⟩
  | escape hn _ ih =>
    rw [List.mem_cons, List.mem_cons, not_or, not_or]
    exact ⟨by decide, Ne.symm hn, ih⟩

theorem not_mem_of_isDigits (h : Token.IsDigits text) : '\n' ∉ text := by
  intro hmem
  exact absurd (h.2 _ hmem) (by decide)

theorem not_mem_of_isText (hl : l ∈ all) (hne : l ≠ newline) (h : l.IsText text) :
    '\n' ∉ text := by
  have hspelling : ∀ l ∈ all, ∀ t, l.spelling? = some t → '\n' ∉ t := by decide
  cases l with
  | newline => exact absurd rfl hne
  | operator s => exact h ▸ hspelling _ hl _ rfl
  | prefixOperator s => exact h ▸ hspelling _ hl _ rfl
  | mark m => exact h ▸ hspelling _ hl _ rfl
  | blank =>
    intro hmem
    exact absurd (h.2 _ hmem) (by decide)
  | comment =>
    obtain ⟨body, rfl, hbody⟩ := h
    simpa using hbody
  | label =>
    obtain ⟨c, rest, rfl, hc, hrest⟩ := h
    rw [List.mem_cons]
    rintro (rfl | hmem)
    · exact absurd hc (by decide)
    · exact absurd (hrest _ hmem) (by decide)
  | string =>
    obtain ⟨body, rfl, hbody⟩ := h
    simpa using not_mem_of_isQuotable hbody
  | float =>
    obtain ⟨whole, fraction, rfl, hw, hf⟩ := h
    simpa using ⟨not_mem_of_isDigits hw, not_mem_of_isDigits hf⟩
  | integer => exact not_mem_of_isDigits h

theorem token?_eq_newline_iff (l : LexicalClass) (text : List Char) :
    l.token? text = some .newline ↔ l = newline := by
  cases l with
  | label => simp [token?, labelToken_ne_newline]
  | _ => simp [token?]

theorem token?_eq_none_iff (l : LexicalClass) (text : List Char) :
    l.token? text = none ↔ l = blank ∨ l = comment := by
  cases l <;> simp [token?]

/-- A text has as many line breaks as it gives tokens of one. -/
theorem count_newline_of_isText (hl : l ∈ all) (h : l.IsText text) :
    text.count '\n' = [l.token? text].count (some .newline) := by
  by_cases hne : l = newline
  · subst hne
    obtain rfl : text = ['\n'] := h
    rfl
  · rw [List.count_eq_zero_of_not_mem (not_mem_of_isText hl hne h)]
    have := mt (token?_eq_newline_iff l text).1 hne
    simp [this]

end LexicalClass

/-! ## One call -/

namespace Lexer

variable {file : String} {source : List Char}

theorem next_skip (file : String) (place : Place) (skip : Nat) (cs : List Char) :
    next file place skip cs = next file (place.past (cs.take skip)) 0 (cs.drop skip) := by
  induction cs generalizing place skip with
  | nil => cases skip <;> simp [next, Place.past]
  | cons c cs ih =>
    cases skip with
    | zero => rfl
    | succ skip => exact ih (place.after c) skip

/-- A call takes the text of the first class that fits, and goes on behind it if that stands for no
token. -/
theorem next_of_first? (file : String) (place : Place) {cs : List Char} {l : LexicalClass} {n : Nat}
    (h : LexicalClass.first? cs = some (l, n)) :
    next file place 0 cs = match l.token? (cs.take n) with
      | some t => .ok (some t, place.past (cs.take n))
      | none => next file (place.past (cs.take n)) 0 (cs.drop n) := by
  cases cs with
  | nil => cases h
  | cons c cs =>
    obtain ⟨-, -, hpos⟩ := LexicalClass.mem_of_first? h
    obtain ⟨m, rfl⟩ : ∃ m, n = m + 1 := ⟨n - 1, by omega⟩
    conv => lhs; unfold next
    rw [h]
    dsimp only
    cases ht : l.token? ((c :: cs).take (m + 1)) with
    | some t => rfl
    | none =>
      dsimp only
      rw [Nat.add_sub_cancel, next_skip]
      rfl

theorem next_of_first?_eq_none (file : String) (place : Place) {c : Char} {cs : List Char}
    (h : LexicalClass.first? (c :: cs) = none) :
    next file place 0 (c :: cs) = .error ⟨file, place.line, .unrecognized c place.column⟩ := by
  unfold next
  rw [h]

/-- From the offset `i` on, nothing but blanks and comments stands in front of the offset `j`. -/
inductive SkipsTo (source : List Char) : Nat → Nat → Prop
  | refl (i : Nat) : SkipsTo source i i
  | skip {i j n : Nat} {l : LexicalClass} (h : LexicalClass.first? (source.drop i) = some (l, n))
    (hl : l = .blank ∨ l = .comment) (hrest : SkipsTo source (i + n) j) : SkipsTo source i j

/-- The text of the class that is found at an offset. -/
theorem isText_extract {i n : Nat} {l : LexicalClass}
    (h : LexicalClass.first? (source.drop i) = some (l, n)) :
    l ∈ LexicalClass.all ∧ 0 < n ∧ i + n ≤ source.length
      ∧ (source.drop i).take n = source.extract i (i + n)
      ∧ l.IsText (source.extract i (i + n)) := by
  have hlongest := LexicalClass.longest_of_first? h
  have hle := hlongest.fits.le
  have hpos := hlongest.pos
  rw [List.length_drop] at hle
  have hextract : (source.drop i).take n = source.extract i (i + n) := by
    rw [List.extract_eq_take_drop, Nat.add_sub_cancel_left]
  exact ⟨hlongest.mem, hpos, by omega, hextract, hextract ▸ hlongest.fits.text⟩

namespace SkipsTo

variable {i j : Nat}

theorem le (h : SkipsTo source i j) : i ≤ j := by
  induction h with
  | refl => exact Nat.le_refl _
  | skip _ _ _ ih => omega

theorem le_length (h : SkipsTo source i j) (hi : i ≤ source.length) : j ≤ source.length := by
  induction h with
  | refl => exact hi
  | skip hfirst _ _ ih =>
    obtain ⟨-, -, hle, -, -⟩ := isText_extract hfirst
    exact ih hle

theorem not_mem (h : SkipsTo source i j) : '\n' ∉ source.extract i j := by
  induction h with
  | refl => simp [List.extract_eq_take_drop]
  | skip hfirst hclass hrest ih =>
    obtain ⟨hl, -, -, -, htext⟩ := isText_extract hfirst
    rw [extract_append source (Nat.le_add_right _ _) hrest.le, List.mem_append, not_or]
    refine ⟨LexicalClass.not_mem_of_isText hl ?_ htext, ih⟩
    rcases hclass with rfl | rfl <;> decide

/-- A call goes on behind what it skips. -/
theorem next_eq {p : Place} (h : SkipsTo source p.position j) :
    next file p 0 (source.drop p.position)
      = next file (p.past (source.extract p.position j)) 0 (source.drop j) := by
  generalize hi : p.position = i at h ⊢
  induction h generalizing p with
  | refl i => simp [List.extract_eq_take_drop, Place.past]
  | @skip i j n l hfirst hclass hrest ih =>
    obtain ⟨-, -, hle, htake, -⟩ := isText_extract hfirst
    subst hi
    have hnone := (LexicalClass.token?_eq_none_iff l ((source.drop p.position).take n)).2 hclass
    rw [next_of_first? file p hfirst, hnone, htake, List.drop_drop,
      extract_append source (Nat.le_add_right _ _) hrest.le, Place.past_append]
    exact ih (Place.position_past_extract (Nat.le_add_right _ _) hle)

end SkipsTo

/-- A call skips blanks and comments as long as there are any. -/
theorem exists_skipsTo (source : List Char) (i : Nat) : ∃ j, SkipsTo source i j ∧
    ∀ l n, LexicalClass.first? (source.drop j) = some (l, n) → l ≠ .blank ∧ l ≠ .comment := by
  induction hlen : source.length - i using Nat.strong_induction_on generalizing i with
  | _ left ih =>
    by_cases h : ∃ l n, LexicalClass.first? (source.drop i) = some (l, n)
        ∧ (l = .blank ∨ l = .comment)
    · obtain ⟨l, n, hfirst, hclass⟩ := h
      obtain ⟨-, hpos, hle, -, -⟩ := isText_extract hfirst
      obtain ⟨j, hskips, hstop⟩ := ih _ (by omega) (i + n) rfl
      exact ⟨j, .skip hfirst hclass hskips, hstop⟩
    · refine ⟨i, .refl i, fun l n hfirst => not_or.1 fun hclass => ?_⟩
      exact h ⟨l, n, hfirst, hclass⟩

/-- A call that succeeds reads up to some offset, and gives the token of a line break exactly if it
reads one. -/
theorem next_ok {p p' : Place} {t : Option Token} (hp : p.position ≤ source.length)
    (h : next file p 0 (source.drop p.position) = .ok (t, p')) :
    ∃ j, p.position ≤ j ∧ j ≤ source.length ∧ p' = p.past (source.extract p.position j)
      ∧ (source.extract p.position j).count '\n' = [t].count (some .newline)
      ∧ (t ≠ none → p.position < j) := by
  obtain ⟨j, hskips, hstop⟩ := exists_skipsTo source p.position
  have hj := hskips.le
  have hskipped : (source.extract p.position j).count '\n' = 0 :=
    List.count_eq_zero_of_not_mem hskips.not_mem
  rw [hskips.next_eq] at h
  cases hf : LexicalClass.first? (source.drop j) with
  | none =>
    cases hdrop : source.drop j with
    | nil =>
      rw [hdrop] at h
      obtain ⟨rfl, rfl⟩ := Prod.mk.inj (Except.ok.inj h)
      exact ⟨j, hj, hskips.le_length hp, rfl, hskipped, fun h => absurd rfl h⟩
    | cons c cs =>
      rw [hdrop] at h hf
      rw [next_of_first?_eq_none file _ hf] at h
      cases h
  | some found =>
    obtain ⟨l, n⟩ := found
    obtain ⟨hl, hpos, hle, htake, htext⟩ := isText_extract hf
    have hcount := LexicalClass.count_newline_of_isText hl htext
    have hsplit := extract_append source hj (Nat.le_add_right j n)
    rw [next_of_first? file _ hf, htake] at h
    split at h
    · next t' ht =>
      obtain ⟨rfl, rfl⟩ := Prod.mk.inj (Except.ok.inj h)
      refine ⟨j + n, by omega, hle, ?_, ?_, fun _ => by omega⟩
      · rw [hsplit, Place.past_append]
      · rw [hsplit, List.count_append, hskipped, Nat.zero_add, hcount, ht]
    · next ht =>
      have := (LexicalClass.token?_eq_none_iff l _).1 ht
      exact absurd this (not_or.2 (hstop l n hf))

/-- A call that fails names the character at which no class fits, and its place. -/
theorem next_error {p : Place} {f : Fault}
    (h : next file p 0 (source.drop p.position) = .error f) :
    ∃ j c, SkipsTo source p.position j ∧ source[j]? = some c
      ∧ LexicalClass.first? (source.drop j) = none
      ∧ f = ⟨file, (p.past (source.extract p.position j)).line,
          .unrecognized c (p.past (source.extract p.position j)).column⟩ := by
  obtain ⟨j, hskips, hstop⟩ := exists_skipsTo source p.position
  rw [hskips.next_eq] at h
  cases hf : LexicalClass.first? (source.drop j) with
  | none =>
    cases hdrop : source.drop j with
    | nil =>
      rw [hdrop] at h
      cases h
    | cons c cs =>
      have hnone := hf
      rw [hdrop] at h hnone
      rw [next_of_first?_eq_none file _ hnone] at h
      refine ⟨j, c, hskips, ?_, hf, (Except.error.inj h).symm⟩
      rw [← List.head?_drop, hdrop, List.head?_cons]
  | some found =>
    obtain ⟨l, n⟩ := found
    rw [next_of_first? file _ hf] at h
    split at h
    · cases h
    · next ht =>
      have := (LexicalClass.token?_eq_none_iff l _).1 ht
      exact absurd this (not_or.2 (hstop l n hf))

end Lexer

/-! ## Any number of calls -/

namespace Stream

variable {file : String} {s s' : Stream} {ts : List (Option Token)}

/-- Calls that succeed one after the other, with the tokens that they give. -/
inductive Reads (file : String) (s : Stream) : List (Option Token) → Stream → Prop
  | nil : Reads file s [] s
  | snoc {ts : List (Option Token)} {t : Option Token} {s' s'' : Stream} (hrun : Reads file s ts s')
    (hnext : s'.next file = .ok (t, s'')) : Reads file s (ts ++ [t]) s''

theorem next_eq_ok {t : Option Token} (h : s.next file = .ok (t, s')) :
    s'.source = s.source ∧ Lexer.next file s.place 0 (s.source.drop s.place.position)
      = .ok (t, s'.place) := by
  unfold next rest at h
  cases hnext : Lexer.next file s.place 0 (s.source.drop s.place.position) with
  | error f =>
    rw [hnext] at h
    cases h
  | ok found =>
    rw [hnext] at h
    cases h
    exact ⟨rfl, rfl⟩

theorem next_eq_error {f : Fault} (h : s.next file = .error f) :
    Lexer.next file s.place 0 (s.source.drop s.place.position) = .error f := by
  unfold next rest at h
  cases hnext : Lexer.next file s.place 0 (s.source.drop s.place.position) with
  | error g =>
    rw [hnext] at h
    cases h
    rfl
  | ok found =>
    rw [hnext] at h
    cases h

/-- Calls read up to some offset, and give as many tokens of line breaks as they read. -/
theorem Reads.exists_past (hs : s.place.position ≤ s.source.length) (h : Reads file s ts s') :
    s'.source = s.source ∧ ∃ j, s.place.position ≤ j ∧ j ≤ s.source.length
      ∧ s'.place = s.place.past (s.source.extract s.place.position j) ∧ s'.place.position = j
      ∧ (s.source.extract s.place.position j).count '\n' = ts.count (some .newline) := by
  induction h with
  | nil =>
    refine ⟨rfl, s.place.position, Nat.le_refl _, hs, ?_, rfl, ?_⟩
    · simp [List.extract_eq_take_drop, Place.past]
    · simp [List.extract_eq_take_drop]
  | @snoc ts t s' s'' hrun hnext ih =>
    obtain ⟨hsource, i, hi, hilen, hplace, hposition, hcount⟩ := ih
    obtain ⟨hsource', hcall⟩ := next_eq_ok hnext
    rw [hsource] at hcall
    obtain ⟨j, hj, hjlen, hplace', hcount', -⟩ := Lexer.next_ok (by omega) hcall
    rw [hposition] at hj hplace' hcount'
    have hsplit := extract_append s.source hi hj
    refine ⟨hsource'.trans hsource, j, by omega, hjlen, ?_, ?_, ?_⟩
    · rw [hplace', hplace, hsplit, Place.past_append]
    · subst hposition
      rw [hplace', Place.position_past_extract hj hjlen]
    · rw [hsplit, List.count_append, List.count_append, hcount, hcount']

/-- What is known of a stream `s'` that calls on `s` lead to, with the tokens `ts` that they gave. -/
structure Exact (file : String) (s : Stream) (ts : List (Option Token)) (s' : Stream) : Prop where
  source : s'.source = s.source
  place : s.place.Exact s.source s'.place
  /-- The tokens of line breaks are the line breaks between the two places. -/
  newlines : ts.count (some .newline)
    = (s.source.extract s.place.position s'.place.position).count '\n'
  /-- A call that gives a token moves the offset on. -/
  grows : ∀ t s'', s'.next file = .ok (some t, s'') → s'.place.position < s''.place.position
  /-- A call that fails names the character and the exact place of the offset at which no class
  fits, and in front of which there are only blanks and comments. -/
  fault : ∀ f, s'.next file = .error f → ∃ p c,
    Lexer.SkipsTo s.source s'.place.position p.position ∧ s.place.Exact s.source p ∧
      s.source[p.position]? = some c ∧ LexicalClass.first? (s.source.drop p.position) = none ∧
      f = ⟨file, p.line, .unrecognized c p.column⟩

/-- The position is exact after any number of calls from a place within a text. -/
theorem reads_exact (h : Reads file s ts s') (hs : s.place.position ≤ s.source.length) :
    Exact file s ts s' := by
  obtain ⟨hsource, i, hi, hilen, hplace, hposition, hcount⟩ := h.exists_past hs
  refine ⟨hsource, hplace ▸ Place.exact_past hi hilen, by rw [hposition, hcount], ?_, ?_⟩
  · intro t s'' hnext
    obtain ⟨-, hcall⟩ := next_eq_ok hnext
    rw [hsource] at hcall
    obtain ⟨j, hj, hjlen, hplace', -, hgrows⟩ := Lexer.next_ok (by omega) hcall
    rw [hplace', Place.position_past_extract hj hjlen]
    exact hgrows (by simp)
  · intro f hnext
    have hcall := next_eq_error hnext
    rw [hsource] at hcall
    obtain ⟨j, c, hskips, hc, hnone, rfl⟩ := Lexer.next_error hcall
    have hj := hskips.le
    have hjlen : j ≤ s.source.length :=
      Nat.le_of_lt (List.getElem?_eq_some_iff.1 hc).1
    rw [hposition] at hj hskips ⊢
    have hpast := Place.position_past_extract (Nat.le_trans hi hj) hjlen
    refine ⟨s.place.past (s.source.extract s.place.position j), c, ?_,
      Place.exact_past (Nat.le_trans hi hj) hjlen, ?_, ?_, ?_⟩
    · rwa [hpast]
    · rwa [hpast]
    · rwa [hpast]
    · rw [hplace, extract_append _ hi hj, Place.past_append]

/-- Three calls on a text that begins in the middle of a line, behind which a string is not
closed. -/
theorem reads_exact_unclosed :
    let s : Stream := ⟨"(x\n # c\n \"b".toList, ⟨1, 5, 2⟩⟩
    let s' : Stream := { s with place := ⟨8, 7, 1⟩ }
    let ts : List (Option Token) := [some (.ident "x"), some .newline, some .newline]
    Reads "<string>" s ts s' ∧ s.place.position ≤ s.source.length ∧
      s'.next "<string>" = .error ⟨"<string>", 7, .unrecognized '"' 2⟩ ∧
      Exact "<string>" s ts s' := by
  intro s s' ts
  have hx : Reads "<string>" s [some (.ident "x")] { s with place := ⟨2, 5, 3⟩ } :=
    @Reads.snoc _ _ [] _ _ _ .nil rfl
  have hbreak : Reads "<string>" s [some (.ident "x"), some .newline]
      { s with place := ⟨3, 6, 1⟩ } := @Reads.snoc _ _ [_] _ _ _ hx rfl
  have hrun : Reads "<string>" s ts s' := @Reads.snoc _ _ [_, _] _ _ _ hbreak rfl
  have hs : s.place.position ≤ s.source.length := by decide
  exact ⟨hrun, hs, rfl, reads_exact hrun hs⟩

end Stream

end ModelScript
