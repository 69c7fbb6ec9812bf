import Mathlib.Data.List.Induction
import ModelScript.Proofs.Lookup.Basic
import ModelScript.Proofs.Token.Blank
import ModelScript.Scope

/-!
# Scopes by look-ups

The search for scopes and separators as loops over the indices of a token list.  No index misses,
and what is found is what the functions of `Scope` find (`rangeOfScope_eq`, `indicesOutsideOf_eq`).
-/

namespace ModelScript.Lookup

open Looking (item item_eq walk range steps steps_cons_inl steps_cons_inr walk_range
  walk_range_length walk_reverse_range)

/-! ## First tokens -/

/-- The index of the first token, from `start` on, that passes a test. -/
def indexWhere (test : Token → Bool) (tokens : List Token) (start : Nat) : Looking (Option Nat) :=
  Sum.getRight? <$> walk tokens (fun i () t => if test t then .inr i else .inl ())
    (range start tokens.length) ()

/-- The index of the first token, from `start` on, of one of the given kinds. -/
def indexOfFirst (kinds : List Kind) : List Token → Nat → Looking (Option Nat) :=
  indexWhere fun t => kinds.contains t.kind

/-- The index of the first token, from `start` on, that is not of the given kind. -/
def indexOfFirstNot (kind : Kind) : List Token → Nat → Looking (Option Nat) :=
  indexWhere fun t => t.kind ≠ kind

theorem indexWhere_eq (test : Token → Bool) (tokens : List Token) (start : Nat) :
    indexWhere test tokens start = pure ((· + start) <$> (tokens.drop start).findIdx? test) := by
  have hsteps (ts : List Token) (k : Nat) :
      (steps (fun i () t => if test t then .inr i else .inl ()) (ts.zipIdx k) ()).getRight?
        = (· + k) <$> ts.findIdx? test := by
    induction ts generalizing k with
    | nil => rfl
    | cons t rest ih =>
      rw [List.zipIdx_cons, steps, List.findIdx?_cons]
      cases test t with
      | true => simp
      | false =>
        have hrest := ih (k + 1)
        simp only [Bool.false_eq_true, if_false]
        rw [hrest]
        cases rest.findIdx? test with
        | none => rfl
        | some j =>
          show some (j + (k + 1)) = some (j + 1 + k)
          congr 1
          omega
  unfold indexWhere
  rw [walk_range_length, map_pure, hsteps]

theorem indexOfFirst_eq (kinds : List Kind) (tokens : List Token) (start : Nat) :
    indexOfFirst kinds tokens start = pure (Scope.firstOf? kinds tokens start) :=
  indexWhere_eq _ _ _

theorem indexOfFirstNot_eq (kind : Kind) (tokens : List Token) (start : Nat) :
    indexOfFirstNot kind tokens start = pure (Scope.firstNot? kind tokens start) :=
  indexWhere_eq _ _ _

/-! ## Scopes -/

/-- One step of the search for a scope: the depth reached, and where the scope was opened. -/
def scopeStep (opening closing : Kind) (i : Nat) (s : Nat × Option Nat) (t : Token) :
    (Nat × Option Nat) ⊕ (Nat × Nat) :=
  if t.kind = opening then .inl (s.1 + 1, some (s.2.getD i))
  else
    match s.2 with
    | none => .inl s
    | some first =>
      if t.kind = closing then
        if s.1 - 1 = 0 then .inr (first, i) else .inl (s.1 - 1, some first)
      else .inl s

/-- The indices of the first opening token, from `start` on, and of the token that closes it. -/
def rangeOfScope (opening closing : Kind) (tokens : List Token) (start : Nat) :
    Looking (Option (Nat × Nat)) :=
  Sum.getRight? <$> walk tokens (scopeStep opening closing) (range start tokens.length) (0, none)

/-- An open scope is closed where the depth falls to zero. -/
theorem steps_scopeStep_some (o c : Kind) (ts : List Token) (depth first k : Nat) :
    (steps (scopeStep o c) (ts.zipIdx k) (depth, some first)).getRight?
      = (Scope.close? o c depth ts).map fun n => (first, k + n) := by
  induction ts generalizing depth k with
  | nil => rfl
  | cons t rest ih =>
    have hnext (d : Nat) : (steps (scopeStep o c) (rest.zipIdx (k + 1)) (d, some first)).getRight?
        = ((· + 1) <$> Scope.close? o c d rest).map fun n => (first, k + n) := by
      rw [ih]
      cases Scope.close? o c d rest with
      | none => rfl
      | some n =>
        show some (first, k + 1 + n) = some (first, k + (n + 1))
        congr 2
        omega
    rw [List.zipIdx_cons, Scope.close?]
    by_cases ho : t.kind = o
    · have hstep : scopeStep o c k (depth, some first) t = .inl (depth + 1, some first) := by
        rw [scopeStep, if_pos ho]
        rfl
      rw [steps_cons_inl hstep, if_pos ho]
      exact hnext _
    · rw [if_neg ho]
      by_cases hc : t.kind = c
      · rw [if_pos hc]
        by_cases hd : depth ≤ 1
        · have hstep : scopeStep o c k (depth, some first) t = .inr (first, k) := by
            rw [scopeStep, if_neg ho]
            dsimp only
            rw [if_pos hc, if_pos (by omega)]
          rw [steps_cons_inr hstep, if_pos hd]
          rfl
        · have hstep : scopeStep o c k (depth, some first) t = .inl (depth - 1, some first) := by
            rw [scopeStep, if_neg ho]
            dsimp only
            rw [if_pos hc, if_neg (by omega)]
          rw [steps_cons_inl hstep, if_neg hd]
          exact hnext _
      · have hstep : scopeStep o c k (depth, some first) t = .inl (depth, some first) := by
          rw [scopeStep, if_neg ho]
          dsimp only
          rw [if_neg hc]
        rw [steps_cons_inl hstep, if_neg hc]
        exact hnext _

/-- Nothing closes a scope before one is opened. -/
theorem steps_scopeStep_none (o c : Kind) (ts : List Token) (k : Nat) :
    (steps (scopeStep o c) (ts.zipIdx k) (0, none)).getRight?
      = (ts.findIdx? fun t => [o].contains t.kind).bind fun i =>
          (Scope.close? o c 1 (ts.drop (i + 1))).map fun n => (k + i, k + i + 1 + n) := by
  induction ts generalizing k with
  | nil => rfl
  | cons t rest ih =>
    rw [List.zipIdx_cons, List.findIdx?_cons]
    by_cases ho : t.kind = o
    · have hstep : scopeStep o c k (0, none) t = .inl (1, some k) := by
        rw [scopeStep, if_pos ho]
        rfl
      rw [steps_cons_inl hstep, steps_scopeStep_some]
      simp [ho]
    · have hstep : scopeStep o c k (0, none) t = .inl (0, none) := by
        rw [scopeStep, if_neg ho]
      rw [steps_cons_inl hstep, ih]
      have hcontains : ([o].contains t.kind) = false := by simpa using ho
      rw [hcontains]
      cases rest.findIdx? fun t => [o].contains t.kind with
      | none => rfl
      | some i =>
        have hadd : k + 1 + i = k + (i + 1) := by omega
        simp only [Bool.false_eq_true, if_false, Option.map_some, Option.bind_some,
          List.drop_succ_cons, hadd]

theorem rangeOfScope_eq (o c : Kind) (tokens : List Token) (start : Nat) :
    rangeOfScope o c tokens start = pure (Scope.range? o c tokens start) := by
  unfold rangeOfScope Scope.range? Scope.firstOf?
  rw [walk_range_length, map_pure, steps_scopeStep_none]
  congr 1
  cases (tokens.drop start).findIdx? fun t => [o].contains t.kind with
  | none => rfl
  | some i =>
    have hdrop : (tokens.drop start).drop (i + 1) = tokens.drop (i + start + 1) := by
      rw [List.drop_drop]
      congr 1
      omega
    simp only [Option.bind_some]
    rw [hdrop]
    show _ = (Scope.close? o c 1 (tokens.drop (i + start + 1))).bind _
    cases Scope.close? o c 1 (tokens.drop (i + start + 1)) with
    | none => rfl
    | some n =>
      show some (start + i, start + i + 1 + n) = some (i + start, i + start + 1 + n)
      rw [Nat.add_comm start i]

/-! ## Trimming -/

/-- The number of line breaks at the front, and the tokens without them. -/
def trimLeading (tokens : List Token) : Looking (Nat × List Token) := do
  let count := (← indexOfFirstNot .newline tokens 0).getD tokens.length
  return (count, tokens.drop count)

/-- The tokens without the line breaks at their end, which are looked for from the last token on. -/
def trimTrailing (tokens : List Token) : Looking (List Token) := do
  let last ← walk tokens (fun i () t => if t.kind = .newline then .inl () else .inr (i + 1))
    (List.range tokens.length).reverse ()
  return tokens.take (last.getRight?.getD 0)

/-- The first token that is no line break, if there is one, stands behind the leading ones. -/
theorem findIdx?_ne_newline (ts : List Token) :
    (ts.findIdx? fun t => t.kind ≠ .newline)
      = if Token.trimStart ts = [] then none else some (Token.leadingNewlines ts) := by
  induction ts with
  | nil => rfl
  | cons t rest ih =>
    rw [List.findIdx?_cons]
    by_cases ht : t = .newline
    · subst ht
      rw [Token.trimStart_newline_cons, Token.leadingNewlines_newline_cons]
      show (rest.findIdx? fun t => t.kind ≠ .newline).map (· + 1) = _
      rw [ih]
      split
      · rfl
      · rfl
    · have hk : t.kind ≠ .newline := mt (Token.kind_eq_newline_iff t).1 ht
      rw [Token.leadingNewlines_cons_of_ne ht, Token.trimStart_cons_of_ne ht]
      simp [hk]

/-- Looking for a token that is no line break is trimming what is searched. -/
theorem firstNot?_newline (tokens : List Token) (start : Nat) :
    Scope.firstNot? .newline tokens start
      = if Token.trimStart (tokens.drop start) = [] then none
          else some (start + Token.leadingNewlines (tokens.drop start)) := by
  unfold Scope.firstNot?
  rw [findIdx?_ne_newline]
  split
  · rfl
  · rw [Nat.add_comm start]
    rfl

theorem newlines_take_add (tokens : List Token) (start : Nat) :
    Token.newlines (tokens.take (start + Token.leadingNewlines (tokens.drop start)))
      = Token.newlines (tokens.take start) + Token.leadingNewlines (tokens.drop start) := by
  rw [List.take_add, Token.newlines_append, Token.newlines_take_leadingNewlines]

theorem drop_add_leadingNewlines (tokens : List Token) (start : Nat) :
    tokens.drop (start + Token.leadingNewlines (tokens.drop start))
      = Token.trimStart (tokens.drop start) := by
  rw [← List.drop_drop, Token.drop_leadingNewlines]

/-- The token that is found behind the line breaks is there. -/
theorem item_of_trimStart {tokens rest : List Token} {t : Token} {start : Nat}
    (h : Token.trimStart (tokens.drop start) = t :: rest) :
    item tokens (start + Token.leadingNewlines (tokens.drop start)) = pure t := by
  apply item_eq
  rw [← List.head?_drop, drop_add_leadingNewlines, h]
  rfl

theorem trimLeading_eq (tokens : List Token) :
    trimLeading tokens = pure (Token.leadingNewlines tokens, Token.trimStart tokens) := by
  unfold trimLeading
  rw [indexOfFirstNot_eq, pure_bind, firstNot?_newline, List.drop_zero, Nat.zero_add]
  have hcount : (if Token.trimStart tokens = [] then none
      else some (Token.leadingNewlines tokens)).getD tokens.length
        = Token.leadingNewlines tokens := by
    split
    · next h =>
      have hlen := Token.length_trimStart tokens
      rw [h] at hlen
      exact hlen.symm
    · rfl
  dsimp only
  rw [hcount, Token.drop_leadingNewlines]

theorem trimTrailing_eq (tokens : List Token) :
    trimTrailing tokens = pure (Token.trimEnd tokens) := by
  have hsteps (ts : List Token) :
      (steps (fun i () t => if t.kind = .newline then .inl () else .inr (i + 1))
        ts.zipIdx.reverse ()).getRight?.getD 0 = ts.length - Token.trailingNewlines ts := by
    induction ts using List.reverseRecOn with
    | nil => rfl
    | append_singleton ts t ih =>
      have hzip : (ts ++ [t]).zipIdx.reverse = (t, ts.length) :: ts.zipIdx.reverse := by
        rw [List.zipIdx_append]
        simp
      rw [hzip]
      unfold Token.trailingNewlines at ih ⊢
      rw [List.reverse_append, List.reverse_singleton, List.singleton_append, List.length_append,
        List.length_singleton]
      by_cases ht : t = .newline
      · subst ht
        rw [steps_cons_inl rfl, ih, Token.leadingNewlines_newline_cons]
        omega
      · have hk : t.kind ≠ .newline := mt (Token.kind_eq_newline_iff t).1 ht
        rw [steps_cons_inr (by rw [if_neg hk]), Token.leadingNewlines_cons_of_ne ht]
        rfl
  unfold trimTrailing Token.trimEnd
  rw [walk_reverse_range _ (Nat.le_refl _), List.take_length, pure_bind, hsteps]

/-! ## Separators -/

/-- One step of the search for separators: the depth, and what was found so far. -/
def separatorStep (scopes : List (Kind × Kind)) (separator : Kind) (i : Nat) (s : Int × List Nat)
    (t : Token) : (Int × List Nat) ⊕ Empty :=
  if (scopes.map (·.1)).contains t.kind then .inl (s.1 + 1, s.2)
  else if (scopes.map (·.2)).contains t.kind then .inl (s.1 - 1, s.2)
  else if t.kind = separator && s.1 = 0 then .inl (s.1, s.2 ++ [i])
  else .inl s

/-- The indices between `start` and `stop` of the separators that stand in no scope. -/
def indicesOutsideOf (scopes : List (Kind × Kind)) (separator : Kind) (tokens : List Token)
    (start stop : Nat) : Looking (List Nat) := do
  match ← walk tokens (separatorStep scopes separator) (range start stop) (0, []) with
  | .inl s => return s.2

theorem steps_separatorStep (scopes : List (Kind × Kind)) (separator : Kind) (ts : List Token)
    (k : Nat) (depth : Int) (found : List Nat) :
    ∃ d, steps (separatorStep scopes separator) (ts.zipIdx k) (depth, found)
      = .inl (d, found ++ Scope.separatorsFrom scopes separator depth k ts) := by
  induction ts generalizing k depth found with
  | nil => exact ⟨depth, by simp [steps, Scope.separatorsFrom]⟩
  | cons t rest ih =>
    rw [List.zipIdx_cons, Scope.separatorsFrom]
    by_cases ho : (scopes.map (·.1)).contains t.kind = true
    · have hstep : separatorStep scopes separator k (depth, found) t = .inl (depth + 1, found) := by
        rw [separatorStep, if_pos ho]
      rw [steps_cons_inl hstep, if_pos ho]
      exact ih _ _ _
    rw [if_neg ho]
    by_cases hc : (scopes.map (·.2)).contains t.kind = true
    · have hstep : separatorStep scopes separator k (depth, found) t = .inl (depth - 1, found) := by
        rw [separatorStep, if_neg ho, if_pos hc]
      rw [steps_cons_inl hstep, if_pos hc]
      exact ih _ _ _
    rw [if_neg hc]
    by_cases hm : (t.kind = separator && depth = 0) = true
    · have hstep : separatorStep scopes separator k (depth, found) t
          = .inl (depth, found ++ [k]) := by
        rw [separatorStep, if_neg ho, if_neg hc, if_pos hm]
      obtain ⟨d, h⟩ := ih (k + 1) depth (found ++ [k])
      rw [steps_cons_inl hstep, if_pos hm, h]
      exact ⟨d, by rw [List.append_assoc, List.singleton_append]⟩
    · have hstep : separatorStep scopes separator k (depth, found) t = .inl (depth, found) := by
        rw [separatorStep, if_neg ho, if_neg hc, if_neg hm]
      rw [steps_cons_inl hstep, if_neg hm]
      exact ih _ _ _

/-- The separators are found, if the range does not reach beyond the tokens. -/
theorem indicesOutsideOf_eq (scopes : List (Kind × Kind)) (separator : Kind) (tokens : List Token)
    (start : Nat) {stop : Nat} (h : stop ≤ tokens.length) :
    indicesOutsideOf scopes separator tokens start stop
      = pure (Scope.separatorsFrom scopes separator 0 start ((tokens.take stop).drop start)) := by
  unfold indicesOutsideOf
  obtain ⟨d, hd⟩ := steps_separatorStep scopes separator ((tokens.take stop).drop start) start 0 []
  rw [walk_range _ _ h, hd]
  rfl

end ModelScript.Lookup
