import ModelScript.Token.Lexer

/-!
# Line breaks and the lexer

A string literal stays in its line: no text between quotes holds a line break, so a string token
that the lexer makes holds none either (`oneLine_of_scan`).  A text without line breaks has no
line break among its tokens (`ne_newline_of_scan`), and is refused in the line where it begins
(`fault_of_scan`).
-/

namespace ModelScript

/-- A string token without a line break in its text, or any other token. -/
def Token.OneLine (t : Token) : Prop := ∀ raw, t = .string raw → '\n' ∉ raw.toList

namespace LexicalClass

/-- A string literal is closed before its line ends. -/
theorem not_mem_take_stringTail {cs : List Char} {n : Nat} (h : stringTail? cs = some n) :
    '\n' ∉ cs.take n := by
  fun_induction stringTail? cs generalizing n with
  | case1 => cases h
  | case2 rest =>
    cases h
    simp
  | case3 => cases h
  | case4 => cases h
  | case5 => cases h
  | case6 c rest hc ih =>
    obtain ⟨m, hm, rfl⟩ := Option.map_eq_some_iff.1 h
    have hne : '\n' ≠ c := fun he => hc he.symm
    simp [ih hm, hne]
  | case7 c rest hq hn hb1 hb2 hb3 ih =>
    obtain ⟨m, hm, rfl⟩ := Option.map_eq_some_iff.1 h
    have hne : '\n' ≠ c := fun he => hn he.symm
    simp [ih hm, hne]

theorem labelToken_ne_string (text raw : String) : labelToken text ≠ .string raw := by
  unfold labelToken
  split
  · simp
  · split <;> simp

theorem labelToken_ne_newline (text : String) : labelToken text ≠ .newline := by
  unfold labelToken
  split
  · simp
  · split <;> simp

/-- The token of a text that fits has no line break between its quotes. -/
theorem oneLine_of_token? {l : LexicalClass} {cs : List Char} {t : Token} (hpos : 0 < l.length cs)
    (h : l.token? (cs.take (l.length cs)) = some t) : t.OneLine := by
  rintro raw rfl
  cases l with
  | string =>
    cases cs with
    | nil => simp [length] at hpos
    | cons c rest =>
      by_cases hc : c = '"'
      · subst hc
        cases hs : stringTail? rest with
        | none => simp [length, hs] at hpos
        | some m =>
          have hlen : length .string ('"' :: rest) = m + 1 := by simp [length, hs]
          rw [hlen] at h
          simp only [token?, List.take_succ_cons, List.tail_cons, Option.some.injEq,
            Token.string.injEq] at h
          rw [← h, String.toList_ofList]
          exact fun hm => not_mem_take_stringTail hs (List.dropLast_subset _ hm)
      · simp [length, hc] at hpos
  | label => exact absurd (Option.some.inj h) (labelToken_ne_string _ _)
  | _ => cases h

/-- The token of a line break stands for one. -/
theorem mem_of_token?_newline {l : LexicalClass} {cs : List Char} (hpos : 0 < l.length cs)
    (h : l.token? (cs.take (l.length cs)) = some .newline) : '\n' ∈ cs := by
  cases l with
  | newline =>
    cases cs with
    | nil => simp [length] at hpos
    | cons c rest =>
      by_cases hc : c = '\n'
      · simp [hc]
      · simp [length, hc] at hpos
  | label => exact absurd (Option.some.inj h) (labelToken_ne_newline _)
  | _ => cases h

end LexicalClass

namespace Lexer

variable {file : String}

/-- What holds of the token of every text that fits holds of all tokens. -/
theorem forall_of_scan {P : Token → Prop} {cs : List Char} {place : Place} {skip : Nat}
    {ts : List Token}
    (hP : ∀ {l : LexicalClass} {rest : List Char} {t : Token}, rest <:+ cs →
      l ∈ LexicalClass.all → 0 < l.length rest →
      l.token? (rest.take (l.length rest)) = some t → P t)
    (h : scan file place skip cs = .ok ts) : ∀ t ∈ ts, P t := by
  induction cs generalizing place skip ts with
  | nil =>
    cases skip <;> cases h <;> simp
  | cons c cs ih =>
    have hrest {place : Place} {skip : Nat} {ts : List Token}
        (h : scan file place skip cs = .ok ts) : ∀ t ∈ ts, P t :=
      ih (fun hs => hP (hs.trans (List.suffix_cons c cs))) h
    cases skip with
    | succ skip => exact hrest h
    | zero =>
      unfold scan at h
      split at h
      · cases h
      · next l n hf =>
        obtain ⟨hl, hn, hpos⟩ := LexicalClass.mem_of_first? hf
        cases hs : scan file (place.after c) (n - 1) cs with
        | error f =>
          rw [hs] at h
          cases h
        | ok more =>
          rw [hs] at h
          cases h
          intro t ht
          rcases List.mem_append.1 ht with ht | ht
          · subst hn
            exact hP (List.suffix_refl _) hl hpos (Option.mem_toList.1 ht)
          · exact hrest hs t ht

theorem oneLine_of_scan {cs : List Char} {place : Place} {skip : Nat} {ts : List Token}
    (h : scan file place skip cs = .ok ts) : ∀ t ∈ ts, t.OneLine :=
  forall_of_scan (fun _ _ hpos ht => LexicalClass.oneLine_of_token? hpos ht) h

theorem ne_newline_of_scan {cs : List Char} {place : Place} {skip : Nat} {ts : List Token}
    (hcs : '\n' ∉ cs) (h : scan file place skip cs = .ok ts) : ∀ t ∈ ts, t ≠ .newline := by
  refine forall_of_scan ?_ h
  rintro l rest t hs - hpos ht rfl
  exact hcs (hs.subset (LexicalClass.mem_of_token?_newline hpos ht))

/-- A text is refused for a character of it, and a text of one line in its line. -/
theorem fault_of_scan {cs : List Char} {place : Place} {skip : Nat} {f : Fault}
    (h : scan file place skip cs = .error f) :
    f.file = file ∧ (∃ c column, f.problem = .unrecognized c column) ∧
      ('\n' ∉ cs → f.line = place.line) := by
  induction cs generalizing place skip with
  | nil => cases skip <;> cases h
  | cons c cs ih =>
    have hrest {skip : Nat} (h : scan file (place.after c) skip cs = .error f) :
        f.file = file ∧ (∃ c column, f.problem = .unrecognized c column) ∧
          ('\n' ∉ c :: cs → f.line = place.line) := by
      obtain ⟨hfile, hproblem, hline⟩ := ih h
      refine ⟨hfile, hproblem, fun hcs => ?_⟩
      have hc : c ≠ '\n' := fun he => hcs (by simp [he])
      rw [hline fun hm => hcs (.tail _ hm), Place.after, if_neg hc]
    cases skip with
    | succ skip => exact hrest h
    | zero =>
      unfold scan at h
      split at h
      · cases h
        exact ⟨rfl, ⟨c, place.column, rfl⟩, fun _ => rfl⟩
      · next l n hf =>
        cases hs : scan file (place.after c) (n - 1) cs with
        | error g =>
          rw [hs] at h
          cases h
          exact hrest hs
        | ok more =>
          rw [hs] at h
          cases h

end Lexer

end ModelScript
