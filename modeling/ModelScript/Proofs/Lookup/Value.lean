import ModelScript.Proofs.Lookup.Cursor
import ModelScript.Proofs.Lookup.Expression

/-!
# Values by look-ups

How far a value goes, found by a loop that asks for the kind of one token after the other, and at a
line break for its neighbours: the tokens up to it are searched backwards, and those from it on
forwards.  `Unread.valueLength` keeps the last token in mind instead (`expressionEnd_eq`).
-/

namespace ModelScript.Lookup

open Looking (item item_eq bind_eq_of)

/-- Whether the value that starts at an index goes on behind a line break. -/
def continuesAfter (tokens : List Token) (start newline : Nat) : Looking Bool := do
  let previous := Token.significant? ((tokens.take newline).drop start).reverse
  if previous.any fun t => [.operator, .prefixOperator].contains t.kind then return true
  match ← indexOfFirstNot .newline tokens newline with
  | none => return false
  | some following => return (← item tokens following).kind = .operator

/-- The end of the value that starts at an index, looked for from a later index on, where the depth
has been reached, in less rounds than the fuel. -/
def expressionEndFrom (tokens : List Token) (start : Nat) : Nat → Nat → Int → Looking Nat
  | 0, _, _ => .fail (.miss .round)
  | fuel + 1, i, depth => do
    if tokens.length ≤ i then return i
    let kind := (← item tokens i).kind
    if [.mark (.opening .round), .mark (.opening .square)].contains kind then
      expressionEndFrom tokens start fuel (i + 1) (depth + 1)
    else if [.mark (.closing .round), .mark (.closing .square)].contains kind then
      if depth - 1 < 0 then return i else expressionEndFrom tokens start fuel (i + 1) (depth - 1)
    else if [.mark (.opening .curly), .mark (.closing .curly)].contains kind && depth = 0 then
      return i
    else if kind = .newline && depth = 0 then
      if ← continuesAfter tokens start i then expressionEndFrom tokens start fuel (i + 1) depth
      else return i
    else expressionEndFrom tokens start fuel (i + 1) depth

/-- The index behind the value that starts at an index. -/
def expressionEnd (tokens : List Token) (start : Nat) : Looking Nat :=
  expressionEndFrom tokens start (tokens.length + 1) start 0

/-- Reads the value at the cursor. -/
def value (file : String) (look : ExprLooker) : Looker Expr := fun c => do
  let stop ← expressionEnd c.tokens c.position
  if stop = c.position then Looking.fault file c.line (.noExpression (← current c))
  else
    let (e, _) ← look c.line ((c.tokens.take stop).drop c.position)
    let c ← advanceTo c stop
    return (e, c)

theorem significant?_newline_cons (ts : List Token) :
    Token.significant? (.newline :: ts) = Token.significant? ts := rfl

theorem significant?_cons_of_ne {t : Token} (ht : t ≠ .newline) (ts : List Token) :
    Token.significant? (t :: ts) = some t := by
  unfold Token.significant?
  rw [List.find?_cons_of_pos (by simp [Token.isNewline_eq_false_iff, ht])]

/-- An operator continues a value behind it, and in front of it. -/
theorem continues_eq (previous : Option Token) (following : List Token) :
    Unread.continues previous following
      = (previous.any (fun t => [.operator, .prefixOperator].contains t.kind)
          || (Token.significant? following).any fun t => t.kind = .operator) := by
  unfold Unread.continues
  congr 1
  · cases previous with
    | none => rfl
    | some t => cases t <;> rfl
  · cases Token.significant? following with
    | none => rfl
    | some t => cases t <;> rfl

theorem continuesAfter_eq (tokens : List Token) (start newline : Nat) :
    continuesAfter tokens start newline
      = pure (Unread.continues (Token.significant? ((tokens.take newline).drop start).reverse)
          (tokens.drop newline)) := by
  rw [continues_eq]
  unfold continuesAfter
  dsimp only
  cases (Token.significant? ((tokens.take newline).drop start).reverse).any
      fun t => [.operator, .prefixOperator].contains t.kind with
  | true => rfl
  | false =>
    rw [indexOfFirstNot_eq, firstNot?_newline, ← Token.head?_trimStart]
    cases htrim : Token.trimStart (tokens.drop newline) with
    | nil => rfl
    | cons t rest =>
      rw [if_neg (by simp), if_neg (by simp), pure_bind]
      dsimp only
      rw [item_of_trimStart htrim]
      rfl

/-- The tokens up to an index, from behind, with the one at the index. -/
theorem significant?_take_succ {tokens rest : List Token} {t : Token} {start i : Nat}
    (hi : start ≤ i) (h : tokens.drop i = t :: rest) :
    Token.significant? ((tokens.take (i + 1)).drop start).reverse
      = if t = .newline then Token.significant? ((tokens.take i).drop start).reverse
        else some t := by
  have hget : tokens[i]? = some t := by
    rw [← List.head?_drop, h]
    rfl
  obtain ⟨hlt, -⟩ := List.getElem?_eq_some_iff.1 hget
  rw [List.take_add_one, hget, List.drop_append_of_le_length (by rw [List.length_take]; omega),
    List.reverse_append]
  show Token.significant? (t :: ((tokens.take i).drop start).reverse) = _
  by_cases ht : t = .newline
  · rw [if_pos ht, ht, significant?_newline_cons]
  · rw [if_neg ht, significant?_cons_of_ne ht]

theorem expressionEndFrom_eq {tokens : List Token} {start fuel i depth : Nat} (hi : start ≤ i)
    (hf : tokens.length - i < fuel) :
    expressionEndFrom tokens start fuel i depth
      = pure (i + Unread.valueLength depth
          (Token.significant? ((tokens.take i).drop start).reverse) (tokens.drop i)) := by
  induction fuel generalizing i depth with
  | zero => exact absurd hf (Nat.not_lt_zero _)
  | succ fuel ih =>
    unfold expressionEndFrom
    cases hdrop : tokens.drop i with
    | nil =>
      rw [if_pos (List.drop_eq_nil_iff.1 hdrop)]
      rfl
    | cons t rest =>
      have hget : tokens[i]? = some t := by
        rw [← List.head?_drop, hdrop]
        rfl
      have hafter : tokens.drop (i + 1) = rest := by
        rw [← List.drop_drop, hdrop]
        rfl
      obtain ⟨hlt, -⟩ := List.getElem?_eq_some_iff.1 hget
      have hgo (d : Nat) : expressionEndFrom tokens start fuel (i + 1) d
          = pure (i + (Unread.valueLength d
              (if t = .newline then Token.significant? ((tokens.take i).drop start).reverse
                else some t) rest + 1)) := by
        rw [ih (by omega) (by omega), hafter, significant?_take_succ hi hdrop]
        congr 1
        omega
      rw [if_neg (by omega), item_eq hget, pure_bind]
      cases t with
      | mark m =>
        cases m with
        | opening b =>
          cases b with
          | round => exact hgo (depth + 1)
          | square => exact hgo (depth + 1)
          | curly =>
            cases depth with
            | zero => rfl
            | succ depth => exact hgo (depth + 1)
        | closing b =>
          have hround : (do
              if (depth : Int) - 1 < 0 then return i
              else expressionEndFrom tokens start fuel (i + 1) (depth - 1))
              = (pure (i + if depth = 0 then 0 else Unread.valueLength (depth - 1)
                  (some (.closing b)) rest + 1) : Looking Nat) := by
            cases depth with
            | zero => rfl
            | succ depth =>
              have hless : ((depth + 1 : Nat) : Int) - 1 = depth := by omega
              rw [hless, if_neg (by omega), if_neg (by omega), Nat.add_sub_cancel]
              exact hgo depth
          cases b with
          | round => exact hround
          | square => exact hround
          | curly =>
            cases depth with
            | zero => rfl
            | succ depth => exact hgo (depth + 1)
        | _ => exact hgo depth
      | newline =>
        have hcontinues : Unread.continues
            (Token.significant? ((tokens.take i).drop start).reverse) (.newline :: rest)
            = Unread.continues (Token.significant? ((tokens.take i).drop start).reverse) rest := rfl
        cases depth with
        | zero =>
          show (do
            if ← continuesAfter tokens start i then expressionEndFrom tokens start fuel (i + 1) 0
            else return i) = _
          rw [continuesAfter_eq, pure_bind, hdrop, hcontinues]
          unfold Unread.valueLength
          cases Unread.continues (Token.significant? ((tokens.take i).drop start).reverse) rest with
          | true => exact hgo 0
          | false => rfl
        | succ depth => exact hgo (depth + 1)
      | _ => exact hgo depth

theorem expressionEnd_eq (tokens : List Token) (start : Nat) :
    expressionEnd tokens start
      = pure (start + Unread.valueLength 0 none (tokens.drop start)) := by
  have hfuel : tokens.length - start < tokens.length + 1 :=
    Nat.lt_succ_of_le (Nat.sub_le tokens.length start)
  have h : expressionEndFrom tokens start (tokens.length + 1) start 0 = _ :=
    expressionEndFrom_eq (Nat.le_refl start) hfuel
  rw [List.drop_eq_nil_of_le (List.length_take_le _ _)] at h
  exact h

theorem value_eq {file : String} {look : ExprLooker} {r : Inner} (hfile : r.file = file)
    (hlook : Mirrors look r.expression) : (value file look).Mirrors r.value := by
  intro c hc
  have hlen := hc.length_unread
  have hle := Unread.valueLength_le 0 none c.unread.tokens
  have hend : expressionEnd c.tokens c.position
      = pure (c.position + Unread.valueLength 0 none c.unread.tokens) := expressionEnd_eq _ _
  unfold value Inner.value
  rw [hend, pure_bind, hfile]
  dsimp only
  by_cases hzero : Unread.valueLength 0 none c.unread.tokens = 0
  · rw [if_pos hzero, if_pos (by omega), current_eq, pure_bind, ending_fault]
  · have hslice : (c.tokens.take (c.position + Unread.valueLength 0 none c.unread.tokens)).drop
        c.position = c.unread.tokens.take (Unread.valueLength 0 none c.unread.tokens) := by
      rw [List.drop_take, Nat.add_sub_cancel_left]
      rfl
    rw [if_neg hzero, if_neg (by omega), hslice]
    unfold Cursor.ending
    rw [bind_assoc]
    refine bind_eq_of (hlook _ _) ?_
    rintro - ⟨e, reached⟩ -
    dsimp only
    rw [advanceTo_eq hc (by omega), Nat.add_sub_cancel_left, pure_bind]
    rfl

end ModelScript.Lookup
