import Mathlib.Data.List.Basic
import ModelScript.Proofs.Lookup.Lexer

/-!
# Lexing line by line

A class that does not cross a character takes as much in front of it as at the end of a text
(`LexicalClass.length_append_stop`), and no class crosses the end of a line.  So a text is lexed
like its lines one after the other, with a line break between the tokens of each two of them, and
what is wrong in a line is wrong in it alone:

    tokenize (a ++ '\n' :: b) = tokenize a, then a line break, then tokenize b
      (tokenize_append_newline)
-/

namespace ModelScript

/-! ## Classes in front of a character that they do not take -/

namespace LexicalClass

variable {d : Char}

/-- A run of characters ends in front of one that does not belong to it. -/
theorem takeWhile_append_stop {p : Char → Bool} (hp : p d = false) (cs rest : List Char) :
    (cs ++ d :: rest).takeWhile p = cs.takeWhile p := by
  induction cs with
  | nil => simp [hp]
  | cons c cs ih =>
    rw [List.cons_append, List.takeWhile_cons, List.takeWhile_cons, ih]

theorem isPrefixOf_append_stop {spelling : List Char} (hs : d ∉ spelling)
    (cs rest : List Char) :
    spelling.isPrefixOf (cs ++ d :: rest) = spelling.isPrefixOf cs := by
  induction spelling generalizing cs with
  | nil => simp
  | cons s spelling ih =>
    obtain ⟨hne, hs⟩ := not_or.1 (mt List.mem_cons.2 hs)
    cases cs with
    | nil =>
      have hfirst : (s == d) = false := by simpa using fun h => hne h.symm
      simp [List.isPrefixOf, hfirst]
    | cons c cs => rw [List.cons_append, List.isPrefixOf, List.isPrefixOf, ih hs]

/-- A spelling that is there ends in front of a character that it does not have, unless that is
refused behind it. -/
theorem spelled_append_stop {spelling : List Char} {stop : Char → Bool}
    (hs : d ∉ spelling) (hstop : stop d = false) (cs rest : List Char) :
    spelled spelling stop (cs ++ d :: rest) = spelled spelling stop cs := by
  unfold spelled
  rw [isPrefixOf_append_stop hs]
  cases hp : spelling.isPrefixOf cs with
  | false => rfl
  | true =>
    obtain ⟨tail, rfl⟩ := List.isPrefixOf_iff_prefix.1 hp
    rw [List.append_assoc, List.drop_left, List.drop_left]
    cases tail with
    | nil => simp [hstop]
    | cons t tail => rfl

theorem digitCount_append_stop (hd : Text.isDecimalDigit d = false) (cs rest : List Char) :
    digitCount (cs ++ d :: rest) = digitCount cs := by
  unfold digitCount
  rw [takeWhile_append_stop hd]

/-- A fraction ends in front of a character that is neither a digit nor a dot. -/
theorem length_float_append_stop (hd : Text.isDecimalDigit d = false) (hdot : d ≠ '.')
    (cs rest : List Char) : length .float (cs ++ d :: rest) = length .float cs := by
  have hdrop : (cs ++ d :: rest).drop (digitCount cs)
      = cs.drop (digitCount cs) ++ d :: rest :=
    List.drop_append_of_le_length (digitCount_le cs)
  simp only [length, digitCount_append_stop hd, hdrop]
  cases cs.drop (digitCount cs) with
  | nil => simp [hdot]
  | cons c tail =>
    rw [List.cons_append]
    by_cases hc : c = '.'
    · subst hc
      simp only [digitCount_append_stop hd]
    · simp [hc]

theorem stringTail?_cons_of_ne {c : Char} (hq : c ≠ '"') (hn : c ≠ '\n') (hb : c ≠ '\\')
    (cs : List Char) : stringTail? (c :: cs) = (· + 1) <$> stringTail? cs := by
  rw [stringTail?]
  · exact fun h => hq h
  · exact fun h => hn h
  · exact fun h => absurd h hb
  · exact fun _ h => absurd h hb
  · exact fun _ _ h => absurd h hb

/-- What closes no string, neither by itself nor behind a backslash, closes none behind any text. -/
theorem stringTail?_append {rest : List Char} (h : stringTail? rest = none)
    (hescaped : stringTail? ('\\' :: rest) = none) (cs : List Char) :
    stringTail? (cs ++ rest) = stringTail? cs := by
  fun_induction stringTail? cs with
  | case1 => exact h
  | case2 => simp [stringTail?]
  | case3 => simp [stringTail?]
  | case4 => exact hescaped
  | case5 => simp [stringTail?]
  | case6 c cs hc ih =>
    rw [List.cons_append, List.cons_append, stringTail?, ih]
    exact hc
  | case7 c cs hq hn hb1 hb2 hb3 ih =>
    have hb : c ≠ '\\' := by
      intro h
      cases cs with
      | nil => exact hb1 h rfl
      | cons c' cs => exact hb3 c' cs h rfl
    rw [List.cons_append, stringTail?_cons_of_ne hq hn hb, ih]

/-- Whether a string is closed shows before its line ends. -/
theorem stringTail?_append_newline (cs rest : List Char) :
    stringTail? (cs ++ '\n' :: rest) = stringTail? cs :=
  stringTail?_append (by simp [stringTail?]) (by simp [stringTail?]) cs

/-- Whether what a class takes can depend on a character behind the first one, or on what follows
that character. -/
def crosses : LexicalClass → Char → Bool
  | blank, d => isBlank d
  | comment, d | string, d => d ≠ '\n'
  | newline, _ | mark _, _ => false
  | operator s, d | prefixOperator s, d => s.toList.contains d || refusedAfter s.toList d
  | label, d => continuesLabel d
  | float, d => Text.isDecimalDigit d || d = '.'
  | integer, d => Text.isDecimalDigit d

/-- A class takes as much in front of a character that it does not cross as at the end of a
text. -/
theorem length_append_stop {l : LexicalClass} (hd : l.crosses d = false) {cs : List Char}
    (hcs : cs ≠ []) (rest : List Char) : l.length (cs ++ d :: rest) = l.length cs := by
  obtain ⟨c, cs, rfl⟩ := List.exists_cons_of_ne_nil hcs
  have hspelled (s : String) (hs : (s.toList.contains d || refusedAfter s.toList d) = false) :
      spelled s.toList (refusedAfter s.toList) (c :: cs ++ d :: rest)
        = spelled s.toList (refusedAfter s.toList) (c :: cs) := by
    obtain ⟨hmem, hstop⟩ := Bool.or_eq_false_iff.1 hs
    exact spelled_append_stop (by simpa using hmem) hstop _ rest
  cases l with
  | blank =>
    have hd : isBlank d = false := hd
    simp only [length]
    rw [takeWhile_append_stop hd]
  | comment =>
    have hd : decide (d ≠ '\n') = false := hd
    by_cases hc : c = '#'
    · subst hc
      simp only [length, List.cons_append]
      rw [takeWhile_append_stop (p := fun x => decide (x ≠ '\n')) hd]
    · simp [length, hc]
  | newline =>
    by_cases hc : c = '\n'
    · subst hc
      rfl
    · simp [length, hc]
  | operator s => exact hspelled s hd
  | prefixOperator s => exact hspelled s hd
  | label =>
    have hd : continuesLabel d = false := hd
    simp only [length, List.cons_append]
    rw [takeWhile_append_stop hd]
  | string =>
    obtain rfl : d = '\n' := by simpa [crosses] using hd
    by_cases hc : c = '"'
    · subst hc
      simp only [length, List.cons_append, stringTail?_append_newline]
    · simp [length, hc]
  | float =>
    obtain ⟨hdigit, hdot⟩ := Bool.or_eq_false_iff.1 hd
    exact length_float_append_stop hdigit (by simpa using hdot) (c :: cs) rest
  | integer => exact digitCount_append_stop hd (c :: cs) rest
  | mark m => rfl

/-- The class found is the same at the end of a line and at the end of a text. -/
theorem first?_append_newline {cs : List Char} (hcs : cs ≠ []) (rest : List Char) :
    first? (cs ++ '\n' :: rest) = first? cs := by
  unfold first?
  rw [← List.head?_filterMap, ← List.head?_filterMap]
  congr 1
  refine List.filterMap_congr fun l hl => ?_
  have hcross : ∀ l ∈ all, l.crosses '\n' = false := by decide
  rw [length_append_stop (hcross l hl) hcs]

end LexicalClass

/-! ## Lines -/

namespace Lexer

variable {file : String}

/-- What is lexed depends on the line and the column of a place, and not on its offset. -/
theorem scan_congr (file : String) {p q : Place} (skip : Nat) (cs : List Char)
    (hl : p.line = q.line) (hc : p.column = q.column) :
    scan file p skip cs = scan file q skip cs := by
  induction cs generalizing p q skip with
  | nil => cases skip <;> rfl
  | cons c cs ih =>
    have hafter : (p.after c).line = (q.after c).line
        ∧ (p.after c).column = (q.after c).column := by
      unfold Place.after
      split
      · exact ⟨congrArg (· + 1) hl, rfl⟩
      · exact ⟨hl, congrArg (· + 1) hc⟩
    cases skip with
    | succ skip => exact ih skip hafter.1 hafter.2
    | zero =>
      unfold scan
      rw [hl, hc]
      split
      · rfl
      · rw [ih _ hafter.1 hafter.2]

theorem scan_newline (file : String) (place : Place) (cs : List Char) :
    scan file place 0 ('\n' :: cs) = do
      let us ← scan file (place.after '\n') 0 cs
      return .newline :: us := by
  have hfirst : LexicalClass.first? ('\n' :: cs) = some (.newline, 1) := rfl
  conv => lhs; unfold scan
  rw [hfirst]
  rfl

/-- A line is lexed by itself, and then what stands behind it. -/
theorem scan_append_newline (place : Place) {skip : Nat} {a : List Char} (hskip : skip ≤ a.length)
    (b : List Char) :
    scan file place skip (a ++ '\n' :: b) = do
      let ts ← scan file place skip a
      let us ← scan file ((place.past a).after '\n') 0 b
      return ts ++ .newline :: us := by
  induction a generalizing place skip with
  | nil =>
    obtain rfl := Nat.le_zero.1 hskip
    exact scan_newline file place b
  | cons c a ih =>
    cases skip with
    | succ skip => exact ih (place.after c) (Nat.le_of_succ_le_succ hskip)
    | zero =>
      have hpast : place.past (c :: a) = (place.after c).past a := rfl
      have hfirst := LexicalClass.first?_append_newline (List.cons_ne_nil c a) b
      rw [hpast]
      rw [List.cons_append] at hfirst ⊢
      generalize hus : scan file (((place.after c).past a).after '\n') 0 b = us
      unfold scan
      rw [hfirst]
      cases hf : LexicalClass.first? (c :: a) with
      | none => rfl
      | some found =>
        obtain ⟨l, n⟩ := found
        obtain ⟨-, hn, hpos⟩ := LexicalClass.mem_of_first? hf
        have hle := LexicalClass.length_le l (c :: a)
        rw [hn] at hle
        have htake : (c :: (a ++ '\n' :: b)).take n = (c :: a).take n := by
          rw [← List.cons_append, List.take_append_of_le_length hle]
        rw [List.length_cons] at hle
        dsimp only
        rw [htake, ih (place.after c) (by omega), hus]
        simp

end Lexer

/-- A text and a line break behind it leave the lexer at the begin of a line. -/
theorem Place.past_after_newline (p : Place) (text : List Char) :
    ((p.past text).after '\n').line = p.line + 1 + text.count '\n'
      ∧ ((p.past text).after '\n').column = 1 := by
  refine ⟨?_, rfl⟩
  show (p.past text).line + 1 = _
  rw [line_past]
  omega

/-- Two texts with a line break between them are lexed one after the other, the second one from the
line on in which it begins: the tokens are those of both with a line break between them, and what is
wrong is what is wrong in the first or, if nothing is, in the second. -/
theorem tokenize_append_newline (file : String) (line : Nat) (a b : List Char) :
    tokenize file line (a ++ '\n' :: b) = do
      let ts ← tokenize file line a
      let us ← tokenize file (line + 1 + a.count '\n') b
      return ts ++ .newline :: us := by
  obtain ⟨hl, hc⟩ := Place.past_after_newline ⟨0, line, 1⟩ a
  unfold tokenize
  rw [Lexer.scan_append_newline _ (Nat.zero_le _)]
  rw [Lexer.scan_congr file (q := ⟨0, line + 1 + a.count '\n', 1⟩) 0 b hl hc]

end ModelScript
