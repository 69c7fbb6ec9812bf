import ModelScript.Expression.Interpolation
import ModelScript.Proofs.Lookup.Basic

/-!
# Interpolations by look-ups

The search for interpolations as a loop that looks back for the backslashes in front of a dollar
sign, and ahead for the brace that closes an interpolation.  `Interpolation.scan` looks at every
character once and keeps in mind whether the next one is escaped; behind an interpolation it is not,
since the character there is a brace (`interpolations_eq`).
-/

namespace ModelScript

namespace Interpolation

variable {d n : Nat}

theorem closeAfter?_opening (d : Nat) (rest : List Char) :
    closeAfter? d ('\x7b' :: rest) = (· + 1) <$> closeAfter? (d + 1) rest := rfl

theorem closeAfter?_closing (d : Nat) (rest : List Char) :
    closeAfter? d ('\x7d' :: rest)
      = if d ≤ 1 then some 0 else (· + 1) <$> closeAfter? (d - 1) rest := rfl

theorem closeAfter?_other (d : Nat) {c : Char} (rest : List Char) (ho : c ≠ '\x7b')
    (hc : c ≠ '\x7d') : closeAfter? d (c :: rest) = (· + 1) <$> closeAfter? d rest := by
  conv => lhs; unfold closeAfter?
  split
  · next h =>
    cases h
  · next h =>
    cases h
    exact absurd rfl ho
  · next h =>
    cases h
    exact absurd rfl hc
  · next h =>
    cases h
    rfl

theorem getElem?_of_closeAfter? {cs : List Char} (h : closeAfter? d cs = some n) :
    cs[n]? = some '\x7d' := by
  induction cs generalizing d n with
  | nil => cases h
  | cons c rest ih =>
    have hrest {d : Nat} (h : (· + 1) <$> closeAfter? d rest = some n) :
        (c :: rest)[n]? = some '\x7d' := by
      obtain ⟨m, hm, rfl⟩ := Option.map_eq_some_iff.1 h
      exact ih hm
    by_cases ho : c = '\x7b'
    · subst ho
      exact hrest h
    by_cases hc : c = '\x7d'
    · subst hc
      rw [closeAfter?_closing] at h
      split at h
      · cases h
        rfl
      · exact hrest h
    · rw [closeAfter?_other d rest ho hc] at h
      exact hrest h

/-- Going on behind the characters of an interpolation. -/
theorem scan_skip (index skip : Nat) (cs : List Char) :
    scan index false skip cs = scan (index + skip) false 0 (cs.drop skip) := by
  induction cs generalizing index skip with
  | nil => cases skip <;> simp [scan]
  | cons c rest ih =>
    cases skip with
    | zero => rfl
    | succ skip =>
      rw [scan, ih, List.drop_succ_cons]
      congr 1
      omega

end Interpolation

namespace Lookup

open Looking (walk range steps steps_cons_inl steps_cons_inr walk_range_length walk_reverse_range)

/-! ## Escapes -/

/-- One step back over backslashes. -/
def escapeStep (_ count : Nat) (c : Char) : Nat ⊕ Nat :=
  if c = '\\' then .inl (count + 1) else .inr count

/-- Whether an odd number of backslashes stands in front of an index. -/
def isEscaped (text : List Char) (index : Nat) : Looking Bool := do
  match ← walk text escapeStep (List.range index).reverse 0 with
  | .inl count | .inr count => return count % 2 = 1

/-- Whether a text ends with an odd number of backslashes. -/
def escapes (text : List Char) : Bool := (text.reverse.takeWhile (· = '\\')).length % 2 = 1

theorem steps_escapeStep (ps : List (Char × Nat)) (count : Nat) :
    (steps escapeStep ps count).elim id id
      = count + ((ps.map (·.1)).takeWhile (· = '\\')).length := by
  induction ps generalizing count with
  | nil => rfl
  | cons p rest ih =>
    obtain ⟨c, i⟩ := p
    rw [List.map_cons]
    by_cases hc : c = '\\'
    · rw [steps_cons_inl (by rw [escapeStep, if_pos hc]), ih,
        List.takeWhile_cons_of_pos (by simpa using hc), List.length_cons]
      omega
    · rw [steps_cons_inr (by rw [escapeStep, if_neg hc]),
        List.takeWhile_cons_of_neg (by simpa using hc)]
      rfl

theorem isEscaped_eq {text : List Char} {index : Nat} (h : index ≤ text.length) :
    isEscaped text index = pure (escapes (text.take index)) := by
  have hcount := steps_escapeStep (text.take index).zipIdx.reverse 0
  rw [List.map_reverse, List.zipIdx_map_fst, Nat.zero_add] at hcount
  unfold isEscaped escapes
  rw [walk_reverse_range _ h, pure_bind, ← hcount]
  cases steps escapeStep (text.take index).zipIdx.reverse 0 with
  | inl count => rfl
  | inr count => rfl

/-- A character is escaped by a backslash that is not. -/
theorem escapes_append (text : List Char) (c : Char) :
    escapes (text ++ [c]) = (c = '\\' && !escapes text) := by
  unfold escapes
  rw [List.reverse_append, List.reverse_singleton, List.singleton_append]
  by_cases hc : c = '\\'
  · rw [List.takeWhile_cons_of_pos (by simpa using hc), List.length_cons]
    rcases Nat.mod_two_eq_zero_or_one (text.reverse.takeWhile (· = '\\')).length with h | h
    · simp [hc, h, Nat.add_mod]
    · simp [hc, h, Nat.add_mod]
  · rw [List.takeWhile_cons_of_neg (by simpa using hc)]
    simp [hc]

/-! ## Braces -/

/-- One step of the search for a closing brace. -/
def braceStep (i : Nat) (depth : Int) (c : Char) : Int ⊕ Nat :=
  if c = '\x7b' then .inl (depth + 1)
  else if c = '\x7d' then if depth - 1 = 0 then .inr i else .inl (depth - 1)
  else .inl depth

/-- The index of the brace that closes the one at an index. -/
def matchBrace (text : List Char) (opening : Nat) : Looking (Option Nat) :=
  Sum.getRight? <$> walk text braceStep (range opening text.length) 0

theorem steps_braceStep (cs : List Char) (k : Nat) {depth : Nat} (h : 0 < depth) :
    (steps braceStep (cs.zipIdx k) (depth : Int)).getRight?
      = (Interpolation.closeAfter? depth cs).map (k + ·) := by
  induction cs generalizing k depth with
  | nil => rfl
  | cons c rest ih =>
    have hnext {d : Nat} (hd : 0 < d) :
        (steps braceStep (rest.zipIdx (k + 1)) (d : Int)).getRight?
          = ((· + 1) <$> Interpolation.closeAfter? d rest).map (k + ·) := by
      rw [ih (k + 1) hd]
      cases Interpolation.closeAfter? d rest with
      | none => rfl
      | some n =>
        show some (k + 1 + n) = some (k + (n + 1))
        congr 1
        omega
    rw [List.zipIdx_cons]
    by_cases ho : c = '\x7b'
    · subst ho
      have hstep : braceStep k depth '\x7b' = .inl ((depth + 1 : Nat) : Int) := rfl
      rw [steps_cons_inl hstep, Interpolation.closeAfter?_opening]
      exact hnext (Nat.succ_pos _)
    by_cases hc : c = '\x7d'
    · subst hc
      rw [Interpolation.closeAfter?_closing]
      by_cases hd : depth ≤ 1
      · have hstep : braceStep k depth '\x7d' = .inr k := by
          rw [braceStep, if_neg (by decide), if_pos rfl, if_pos (by omega)]
        rw [steps_cons_inr hstep, if_pos hd]
        rfl
      · have hstep : braceStep k depth '\x7d' = .inl ((depth - 1 : Nat) : Int) := by
          rw [braceStep, if_neg (by decide), if_pos rfl, if_neg (by omega)]
          congr 1
          omega
        rw [steps_cons_inl hstep, if_neg hd]
        exact hnext (by omega)
    · have hstep : braceStep k depth c = .inl (depth : Int) := by
        rw [braceStep, if_neg ho, if_neg hc]
      rw [steps_cons_inl hstep, Interpolation.closeAfter?_other depth rest ho hc]
      exact hnext h

theorem matchBrace_eq {text : List Char} {i : Nat} (h : text[i]? = some '\x7b') :
    matchBrace text i
      = pure ((Interpolation.closeAfter? 1 (text.drop (i + 1))).map (i + 1 + ·)) := by
  obtain ⟨hi, hc⟩ := List.getElem?_eq_some_iff.1 h
  unfold matchBrace
  have hstep : braceStep i 0 '\x7b' = .inl 1 := rfl
  rw [walk_range_length, map_pure, List.drop_eq_getElem_cons hi, hc, List.zipIdx_cons,
    steps_cons_inl hstep]
  congr 1
  exact steps_braceStep (text.drop (i + 1)) (i + 1) Nat.one_pos

/-! ## Interpolations -/

/-- The index of the opening brace of an interpolation whose marker begins at an index. -/
def openingBrace (text : List Char) (i : Nat) : Looking (Option Nat) := do
  if i = 0 && ['\x7b'].isPrefixOf text then return some 0
  else if ['$', '\x7b'].isPrefixOf (text.drop i) then
    if ← isEscaped text i then return none else return some (i + 1)
  else return none

/-- The interpolations whose markers begin at an index or behind it, found in less rounds than the
fuel. -/
def interpolationsFrom (text : List Char) : Nat → Nat → Looking (List Interpolation)
  | 0, _ => .fail (.miss .round)
  | fuel + 1, i => do
    if text.length ≤ i then return []
    match ← openingBrace text i with
    | none => interpolationsFrom text fuel (i + 1)
    | some brace =>
      match ← matchBrace text brace with
      | none => interpolationsFrom text fuel (i + 1)
      | some close =>
        let rest ← interpolationsFrom text fuel (close + 1)
        return ⟨i, brace, close⟩ :: rest

/-- The interpolations of a text, in order. -/
def interpolations (text : List Char) : Looking (List Interpolation) :=
  interpolationsFrom text (text.length + 1) 0

/-- Where an interpolation begins, its brace opens at the index found, and closes where the depth
falls to zero. -/
theorem openingBrace_eq {text rest : List Char} {i : Nat} {c : Char}
    (h : text.drop i = c :: rest) :
    ∃ brace : Option Nat, openingBrace text i = pure brace ∧
      (∀ b, brace = some b → i ≤ b ∧ text[b]? = some '\x7b') ∧
      Interpolation.startingAt? i (escapes (text.take i)) (c :: rest)
        = brace.bind fun b => (Interpolation.closeAfter? 1 (text.drop (b + 1))).map
            fun n => ⟨i, b, b + 1 + n⟩ := by
  have hi : i < text.length := by
    by_contra hle
    rw [List.drop_eq_nil_of_le (Nat.le_of_not_lt hle)] at h
    cases h
  have hafter : text.drop (i + 1) = rest := by
    rw [← List.drop_drop, h]
    rfl
  have hhere : text[i]? = some c := by
    rw [← List.head?_drop, h]
    rfl
  have hnext : text[i + 1]? = rest.head? := by rw [← List.head?_drop, hafter]
  unfold openingBrace
  rw [h]
  by_cases hopen : c = '\x7b'
  · subst hopen
    by_cases hzero : i = 0
    · subst hzero
      rw [List.drop_zero] at h
      refine ⟨some 0, by simp [h], ?_, ?_⟩
      · rintro b ⟨⟩
        exact ⟨Nat.le_refl _, hhere⟩
      · rw [Option.bind_some, hafter]
        show (fun n => (⟨0, 0, n + 1⟩ : Interpolation)) <$> _ = _
        cases Interpolation.closeAfter? 1 rest with
        | none => rfl
        | some n =>
          show some (⟨0, 0, n + 1⟩ : Interpolation) = some ⟨0, 0, 0 + 1 + n⟩
          congr 2
          omega
    · refine ⟨none, by simp [hzero], by simp, ?_⟩
      show (if i = 0 then _ else none) = _
      rw [if_neg hzero]
      rfl
  · have hfirst : (i = 0 && ['\x7b'].isPrefixOf text) = false := by
      by_cases hzero : i = 0
      · subst hzero
        rw [List.drop_zero] at h
        simp [h, List.isPrefixOf, Ne.symm hopen]
      · simp [hzero]
    rw [hfirst]
    by_cases hmarker : c = '$' ∧ rest.head? = some '\x7b'
    · obtain ⟨rfl, hbrace⟩ := hmarker
      obtain ⟨rest, rfl⟩ := List.head?_eq_some_iff.1 hbrace
      have hinner : text.drop (i + 1 + 1) = rest := by
        rw [← List.drop_drop, hafter]
        rfl
      simp only [isEscaped_eq (Nat.le_of_lt hi)]
      cases hesc : escapes (text.take i) with
      | true => exact ⟨none, by simp, by simp, rfl⟩
      | false =>
        refine ⟨some (i + 1), by simp, ?_, ?_⟩
        · rintro b ⟨⟩
          exact ⟨Nat.le_succ _, hnext.trans hbrace⟩
        · rw [Option.bind_some, hinner]
          rfl
    · refine ⟨none, ?_, by simp, ?_⟩
      · cases rest with
        | nil => simp
        | cons c' rest =>
          have hnot : ¬ ('$' = c ∧ '\x7b' = c') := by
            rintro ⟨rfl, rfl⟩
            exact hmarker ⟨rfl, rfl⟩
          simp [hnot]
      · unfold Interpolation.startingAt?
        split
        · next he =>
          cases he
          exact absurd rfl hopen
        · next he =>
          cases he
          exact absurd ⟨rfl, rfl⟩ hmarker
        · rfl

theorem interpolationsFrom_eq (text : List Char) {fuel i : Nat} (h : text.length - i < fuel) :
    interpolationsFrom text fuel i
      = pure (Interpolation.scan i (escapes (text.take i)) 0 (text.drop i)) := by
  induction fuel generalizing i with
  | zero => exact absurd h (Nat.not_lt_zero _)
  | succ fuel ih =>
    unfold interpolationsFrom
    by_cases hend : text.length ≤ i
    · rw [if_pos hend, List.drop_eq_nil_of_le hend]
      rfl
    · have hi : i < text.length := Nat.lt_of_not_le hend
      rw [if_neg hend]
      obtain ⟨brace, hbrace, hopen, hstart⟩ := openingBrace_eq (List.drop_eq_getElem_cons hi)
      -- Without an interpolation, the search goes on with the next character.
      have hnone : interpolationsFrom text fuel (i + 1)
          = pure (Interpolation.scan (i + 1) (text[i] = '\\' && !escapes (text.take i)) 0
              (text.drop (i + 1))) := by
        rw [ih (by omega), List.take_add_one, List.getElem?_eq_getElem hi]
        show pure (Interpolation.scan (i + 1) (escapes (text.take i ++ [text[i]])) 0 _) = _
        rw [escapes_append]
      rw [hbrace, pure_bind, List.drop_eq_getElem_cons hi]
      conv => rhs; unfold Interpolation.scan
      rw [hstart]
      cases brace with
      | none => exact hnone
      | some b =>
        obtain ⟨hib, hb⟩ := hopen b rfl
        dsimp only [Option.bind_some]
        rw [matchBrace_eq hb, pure_bind]
        cases hclose : Interpolation.closeAfter? 1 (text.drop (b + 1)) with
        | none => exact hnone
        | some n =>
          have hbehind := Interpolation.getElem?_of_closeAfter? hclose
          rw [List.getElem?_drop] at hbehind
          have hskip : i + 1 + (b + 1 + n - i) = b + 1 + n + 1 := by omega
          dsimp only [Option.map_some]
          rw [Interpolation.scan_skip, List.drop_drop, hskip, ih (by omega), List.take_add_one,
            hbehind]
          show (pure (Interpolation.scan _ (escapes (text.take (b + 1 + n) ++ ['\x7d'])) 0 _)
            >>= _) = _
          rw [escapes_append]
          rfl

theorem interpolations_eq (text : List Char) :
    interpolations text = pure (Interpolation.ranges text) :=
  interpolationsFrom_eq text (Nat.lt_succ_self _)

end Lookup

end ModelScript
