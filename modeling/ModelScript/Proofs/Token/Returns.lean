import ModelScript.Build.Compile
import ModelScript.Proofs.Files.Reading
import ModelScript.Proofs.Token.Spelling

/-!
# Carriage returns at the end of a line

A carriage return is a blank, so at the end of a line it is either skipped with the blanks, or part
of a comment, or in the way of a string that is not closed there anyway.  `dropReturns` leaves out
those in front of a line feed, and the text is lexed as before, faults included:

    tokenize (dropReturns source) = tokenize source             (tokenize_dropReturns)

If no other carriage returns are there, this is how the text is read from a file.  What carries it
is that a carriage return at the end of a text changes nothing (`Lexer.scan_append_return`), and
that a text is lexed line by line.
-/

namespace ModelScript

/-! ## Texts -/

namespace Text

/-- Leaves out each carriage return that stands right in front of a line feed. -/
def dropReturns : List Char → List Char
  | [] => []
  | '\r' :: '\n' :: rest => '\n' :: dropReturns rest
  | c :: rest => c :: dropReturns rest

/-- Each carriage return stands right in front of a line feed. -/
def ReturnsPaired (cs : List Char) : Prop := ∀ i, cs[i]? = some '\r' → cs[i + 1]? = some '\n'

instance (cs : List Char) : Decidable (ReturnsPaired cs) :=
  decidable_of_iff (∀ i < cs.length, cs[i]? = some '\r' → cs[i + 1]? = some '\n')
    ⟨fun h i hi => h i (List.getElem?_eq_some_iff.1 hi).1 hi, fun h i _ => h i⟩

theorem ReturnsPaired.tail {c : Char} {cs : List Char} (h : ReturnsPaired (c :: cs)) :
    ReturnsPaired cs := fun i hi => h (i + 1) hi

/-- Line breaks are unified by leaving out carriage returns if these are all in pairs. -/
theorem ReturnsPaired.unifyLineBreaks_eq {cs : List Char} (h : ReturnsPaired cs) :
    unifyLineBreaks cs = dropReturns cs := by
  fun_induction unifyLineBreaks cs with
  | case1 => rfl
  | case2 rest ih => rw [dropReturns, ih h.tail.tail]
  | case3 rest hpair ih =>
    have hnext : rest[0]? = some '\n' := h 0 rfl
    cases rest with
    | nil => cases hnext
    | cons d rest =>
      obtain rfl : d = '\n' := Option.some.inj hnext
      exact absurd rfl (hpair rest)
  | case4 c rest hpair hreturn ih =>
    rw [dropReturns, ih h.tail]
    exact hpair

end Text

/-! ## Classes in front of a carriage return -/

namespace LexicalClass

variable {c : Char}

/-- A carriage return closes no string. -/
theorem stringTail?_append_return (cs : List Char) :
    stringTail? (cs ++ ['\r']) = stringTail? cs :=
  stringTail?_append rfl rfl cs

/-- Only blanks and comments take a carriage return at the end of a text. -/
theorem first?_append_return (hblank : isBlank c = false) (hcomment : c ≠ '#') (cs : List Char) :
    first? (c :: cs ++ ['\r']) = first? (c :: cs) := by
  have hcross : ∀ l ∈ all, l.crosses '\r' = true → l ∈ [blank, comment, string] := by decide
  unfold first?
  rw [← List.head?_filterMap, ← List.head?_filterMap]
  congr 1
  refine List.filterMap_congr fun l hl => ?_
  have hlen : l.length (c :: cs ++ ['\r']) = l.length (c :: cs) := by
    by_cases h : l.crosses '\r' = true
    · have hl := hcross l hl h
      simp only [List.mem_cons, List.not_mem_nil, or_false] at hl
      rcases hl with rfl | rfl | rfl
      · have hbegins : begins blank c = false := hblank
        rw [List.cons_append, length_eq_zero hbegins, length_eq_zero hbegins]
      · have hbegins : begins comment c = false := by simp [begins, hcomment]
        rw [List.cons_append, length_eq_zero hbegins, length_eq_zero hbegins]
      · by_cases hc : c = '"'
        · subst hc
          simp only [length, List.cons_append, stringTail?_append_return]
        · simp [length, hc]
    · exact length_append_stop (Bool.eq_false_iff.2 h) (List.cons_ne_nil c cs) []
  rw [hlen]

theorem first?_blank (hc : isBlank c = true) (cs : List Char) :
    first? (c :: cs) = some (blank, (cs.takeWhile isBlank).length + 1) := by
  have hlen : length blank (c :: cs) = (cs.takeWhile isBlank).length + 1 := by
    simp [length, hc]
  have hall : all = [] ++ blank :: all.tail := rfl
  rw [← hlen]
  exact first?_eq_some hall (fun k hk => by cases hk) (by omega)

theorem first?_comment (cs : List Char) :
    first? ('#' :: cs) = some (comment, (cs.takeWhile (· ≠ '\n')).length + 1) := by
  have hall : all = [blank] ++ comment :: all.tail.tail := rfl
  refine first?_eq_some hall (fun k hk => ?_) (Nat.succ_pos _)
  rw [List.mem_singleton.1 hk]
  exact length_eq_zero rfl cs

/-- A run takes a character behind the text along if it takes the whole text. -/
theorem length_takeWhile_append_singleton {p : Char → Bool} (hp : p c = true) (cs : List Char) :
    ((cs ++ [c]).takeWhile p).length = (cs.takeWhile p).length ∨
      (cs.takeWhile p).length = cs.length
        ∧ ((cs ++ [c]).takeWhile p).length = cs.length + 1 := by
  rw [List.takeWhile_append]
  split
  · next h => exact .inr ⟨h, by simp [hp]⟩
  · exact .inl rfl

end LexicalClass

/-! ## Lexing -/

namespace Lexer

variable {file : String}

/-- Nothing is left to be lexed if everything is passed over. -/
theorem scan_of_length_le {place : Place} {skip : Nat} {cs : List Char} (h : cs.length ≤ skip) :
    scan file place skip cs = .ok [] := by
  rw [scan_skip, List.drop_of_length_le h]
  rfl

/-- Blanks and comments go on into a carriage return, or end in front of it. -/
theorem scan_append_return_of_skipped {l : LexicalClass} {place : Place} {c : Char} {cs : List Char}
    {n n' : Nat} (hl : ∀ text, l.token? text = none)
    (hfirst : LexicalClass.first? (c :: cs) = some (l, n + 1))
    (hfirst' : LexicalClass.first? (c :: (cs ++ ['\r'])) = some (l, n' + 1))
    (hlen : n' = n ∨ n = cs.length ∧ n' = cs.length + 1)
    (ih : scan file (place.after c) n (cs ++ ['\r']) = scan file (place.after c) n cs) :
    scan file place 0 (c :: (cs ++ ['\r'])) = scan file place 0 (c :: cs) := by
  unfold scan
  rw [hfirst, hfirst']
  dsimp only
  rw [hl, hl, Nat.add_sub_cancel, Nat.add_sub_cancel]
  rcases hlen with rfl | ⟨rfl, rfl⟩
  · rw [ih]
  · have hrest : scan file (place.after c) cs.length cs = .ok [] := scan_of_length_le (Nat.le_refl _)
    rw [hrest, scan_of_length_le (by simp)]

/-- A carriage return at the end of a text changes nothing. -/
theorem scan_append_return {place : Place} {skip : Nat} {cs : List Char} (h : skip ≤ cs.length) :
    scan file place skip (cs ++ ['\r']) = scan file place skip cs := by
  induction cs generalizing place skip with
  | nil =>
    obtain rfl := Nat.le_zero.1 h
    rfl
  | cons c cs ih =>
    cases skip with
    | succ skip => exact ih (Nat.le_of_succ_le_succ h)
    | zero =>
      rw [List.cons_append]
      by_cases hblank : LexicalClass.isBlank c = true
      · refine scan_append_return_of_skipped (fun _ => rfl) (LexicalClass.first?_blank hblank cs)
          (LexicalClass.first?_blank hblank _)
          (LexicalClass.length_takeWhile_append_singleton (by rfl) cs) (ih ?_)
        exact (List.takeWhile_prefix _).length_le
      by_cases hcomment : c = '#'
      · subst hcomment
        refine scan_append_return_of_skipped (fun _ => rfl) (LexicalClass.first?_comment cs)
          (LexicalClass.first?_comment _)
          (LexicalClass.length_takeWhile_append_singleton (by decide) cs) (ih ?_)
        exact (List.takeWhile_prefix _).length_le
      have hfirst := LexicalClass.first?_append_return (Bool.eq_false_iff.2 hblank) hcomment cs
      rw [List.cons_append] at hfirst
      unfold scan
      rw [hfirst]
      cases hf : LexicalClass.first? (c :: cs) with
      | none => rfl
      | some found =>
        obtain ⟨l, n⟩ := found
        obtain ⟨-, hn, hpos⟩ := LexicalClass.mem_of_first? hf
        have hle := LexicalClass.length_le l (c :: cs)
        rw [hn] at hle
        have htake : (c :: (cs ++ ['\r'])).take n = (c :: cs).take n := by
          rw [← List.cons_append, List.take_append_of_le_length hle]
        rw [List.length_cons] at hle
        dsimp only
        rw [htake, ih (by omega)]

end Lexer

variable {file : String} {line : Nat}

/-- A carriage return in front of a line feed changes nothing. -/
theorem tokenize_append_return (a b : List Char) :
    tokenize file line (a ++ '\r' :: '\n' :: b) = tokenize file line (a ++ '\n' :: b) := by
  have hshape : a ++ '\r' :: '\n' :: b = a ++ ['\r'] ++ '\n' :: b := by simp
  have hline : tokenize file line (a ++ ['\r']) = tokenize file line a :=
    Lexer.scan_append_return (Nat.zero_le _)
  have hcount : (a ++ ['\r']).count '\n' = a.count '\n' := by simp
  rw [hshape, tokenize_append_newline, tokenize_append_newline, hline, hcount]

/-- Carriage returns are left out one after the other. -/
theorem tokenize_append_dropReturns (a b : List Char) :
    tokenize file line (a ++ Text.dropReturns b) = tokenize file line (a ++ b) := by
  fun_induction Text.dropReturns b generalizing a with
  | case1 => rfl
  | case2 rest ih =>
    rw [tokenize_append_return, List.append_cons, ih, ← List.append_cons]
  | case3 c rest _ ih => rw [List.append_cons, ih, ← List.append_cons]

/-! ## Compiling -/

variable [DepthLimits]

/-- The context of a text depends on its tokens alone. -/
theorem compile_congr {separators : Separators} {a b : List Char}
    (h : tokenize file 1 a = tokenize file 1 b) :
    compile separators file a = compile separators file b := by
  have htokens : Reading.tokens file 1 a = Reading.tokens file 1 b := by
    unfold Reading.tokens
    rw [h]
  unfold compile readFile readWithin
  rw [htokens]

/-- Leaving out the carriage returns in front of line feeds changes neither the tokens of a text nor
the fault for which it is refused.  So a text with no other carriage returns gives the same tokens
and is compiled to the same, whether it is given as it is or read from a file. -/
theorem tokenize_dropReturns (file : String) (line : Nat) (source : String) :
    tokenize file line (Text.dropReturns source.toList) = tokenize file line source.toList ∧
      (Text.ReturnsPaired source.toList → ∀ (files : FileTree) (path : Path) (shown : String),
        '\x00' ∉ shown.toList → files.entry path = .ok (.file (Text.Utf8.encode source)) →
        ∃ text, files.readText path shown = .ok text ∧
          tokenize file line text = tokenize file line source.toList ∧
          ∀ separators, compile separators file text = compile separators file source.toList) := by
  have hdrop (line : Nat) : tokenize file line (Text.dropReturns source.toList)
      = tokenize file line source.toList := tokenize_append_dropReturns [] source.toList
  refine ⟨hdrop line, fun hpaired files path shown hnull hentry => ?_⟩
  refine ⟨_, FileTree.readText_of_entry hnull hentry, ?_, fun separators => ?_⟩
  · rw [hpaired.unifyLineBreaks_eq, hdrop]
  · rw [hpaired.unifyLineBreaks_eq]
    exact compile_congr (hdrop 1)

/-- A file of two lines, with a carriage return behind a comment and one behind a word. -/
def returnedFiles : FileTree :=
  ⟨[], [(["model.zolang"], .file (Text.Utf8.encode "let x be # one\r\n1 plus\r\n2"))]⟩

/-- Both lines are read and compiled as if they were given as they are. -/
theorem tokenize_dropReturns_lines :
    Text.ReturnsPaired "let x be # one\r\n1 plus\r\n2".toList ∧
      ∃ text, returnedFiles.readText (.ofString "model.zolang") "model.zolang" = .ok text ∧
        tokenize "model.zolang" 1 text
          = tokenize "model.zolang" 1 "let x be # one\r\n1 plus\r\n2".toList ∧
        ∀ separators, compile separators "model.zolang" text
          = compile separators "model.zolang" "let x be # one\r\n1 plus\r\n2".toList := by
  have hpaired : Text.ReturnsPaired "let x be # one\r\n1 plus\r\n2".toList := by decide
  have hnull : '\x00' ∉ "model.zolang".toList := by decide
  have hentry : returnedFiles.entry (.ofString "model.zolang")
      = .ok (.file (Text.Utf8.encode "let x be # one\r\n1 plus\r\n2")) := rfl
  exact ⟨hpaired, (tokenize_dropReturns "model.zolang" 1 _).2 hpaired returnedFiles _ _ hnull
    hentry⟩

end ModelScript
