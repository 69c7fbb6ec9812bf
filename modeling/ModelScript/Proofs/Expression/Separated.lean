import ModelScript.Proofs.Expression.Depth
import ModelScript.Proofs.Expression.Location
import ModelScript.Proofs.Scope.Counting

/-!
# Lists with commas

A list may have one element that cannot be read: it is left out with a warning.  Two elements and
more are read all or not at all, and there are two as soon as the depth of parentheses and square
brackets is zero in front of some comma (`readList_eq_elements`).

The depth counts both shapes of bracket together, and it also counts the brackets that are closed
without having been opened.  A comma with no open bracket in front of it separates elements if there
are no such brackets (`readList_separated`); behind one, the comma is overlooked, and the elements
around it are left out as one (`readList_overlooks`).
-/

namespace ModelScript

open Token (enclose)

theorem Scope.length_segments (ts : List Token) :
    (segments 0 ts).length = (separatorsFrom listScopes (.mark .comma) 0 0 ts).length + 1 := by
  have hcut := cut_separatorsFrom [] [] ts 0
  have hlen := congrArg List.length hcut
  rw [length_cut, List.length_modifyHead] at hlen
  exact hlen.symm

/-- A comma at depth zero makes two segments of the tokens around it. -/
theorem Scope.two_le_length_segments {front : List Token} (h : depth listScopes front = 0)
    (back : List Token) : 2 ≤ (segments 0 (front ++ .mark .comma :: back)).length := by
  have hmem : front.length
      ∈ separatorsFrom listScopes (.mark .comma) 0 0 (front ++ .mark .comma :: back) :=
    (mem_separatorsFrom_iff listScopes (t := .mark .comma) rfl rfl front back).2 h
  have := List.length_pos_of_mem hmem
  rw [length_segments]
  omega

namespace Expr

variable {file : String} {read : ExprReader}

theorem length_of_elements {line n : Nat} {segments : List (List Token)} {es : List Expr}
    (h : (elements read line segments).Yields n es) : es.length = segments.length := by
  induction segments generalizing line n es with
  | nil =>
    obtain ⟨-, rfl⟩ := (Logged.yields_pure _ _ _).1 h
    rfl
  | cons ts rest ih =>
    unfold elements at h
    obtain ⟨_, _, ⟨e, _⟩, -, h, -⟩ := (Logged.yields_bind _ _ _ _).1 h
    obtain ⟨_, _, es, hes, h, -⟩ := (Logged.yields_bind _ _ _ _).1 h
    obtain ⟨-, rfl⟩ := (Logged.yields_pure _ _ _).1 h
    rw [List.length_cons, List.length_cons, ih hes]

/-- With a comma at depth zero, the elements are read one by one. -/
theorem readList_eq_elements {line : Nat} {b : Bracket} {before front back : List Token}
    (hb : ∀ a ∈ before, a ≠ .opening b) (hc : Scope.Closes b (front ++ .mark .comma :: back))
    (hd : Scope.depth Scope.listScopes front = 0) (tail : List Token) :
    readList file read (.mark (.opening b)) (.mark (.closing b)) line
        (before ++ enclose b (front ++ .mark .comma :: back) ++ tail)
      = elements read (line + Token.newlines (before ++ [.opening b]))
          (Scope.segments 0 (front ++ .mark .comma :: back)) := by
  have hlen := Scope.two_le_length_segments hd back
  rw [readList_eq hb hc, if_neg (by simp)]
  split
  · next h =>
    rw [h] at hlen
    exact absurd hlen (by simp)
  · rfl

/-- A list whose comma is at depth zero has two elements or more, unless it stops at a fault. -/
theorem readList_cases (file : String) (depth line : Nat) {b : Bracket}
    {before front back : List Token} (hb : ∀ a ∈ before, a ≠ .opening b)
    (hc : Scope.Closes b (front ++ .mark .comma :: back))
    (hd : Scope.depth Scope.listScopes front = 0) (tail : List Token) :
    let x := readList file (Expr.read file depth) (.mark (.opening b)) (.mark (.closing b)) line
      (before ++ enclose b (front ++ .mark .comma :: back) ++ tail)
    (∃ n es, x.Yields n es ∧ 2 ≤ es.length) ∨ (∃ f, x.Faults f) ∨ ¬ x.Finishes := by
  intro x
  have hlist := (readList_located (located_of_read file depth) line hb hc tail).list
  cases ho : x.outcome with
  | ok es =>
    have hy : x.Yields x.warnings.length es := ⟨ho, rfl⟩
    have hlen := hy
    unfold x at hlen
    rw [readList_eq_elements hb hc hd] at hlen
    refine Or.inl ⟨_, es, hy, ?_⟩
    rw [length_of_elements hlen]
    exact Scope.two_le_length_segments hd back
  | error stop =>
    cases stop with
    | fault f => exact Or.inr (Or.inl ⟨f, ho⟩)
    | tooDeep => exact Or.inr (Or.inr (not_not_intro ho))
    | noList k => exact absurd ho (hlist k)

end Expr

theorem Scope.exists_split {b : Bracket} {before inner rest : List Token} {t : Token} {i : Nat}
    (ht : (before ++ enclose b inner ++ rest)[i]? = some t) (hlo : before.length < i)
    (hhi : i < before.length + 1 + inner.length) :
    ∃ back, inner
      = ((before ++ enclose b inner ++ rest).take i).drop (before.length + 1) ++ t :: back := by
  obtain ⟨k, rfl⟩ : ∃ k, i = before.length + 1 + k := ⟨i - (before.length + 1), by omega⟩
  have hk : k < inner.length := by omega
  have hshape : before ++ enclose b inner ++ rest
      = (before ++ [.opening b]) ++ (inner ++ .closing b :: rest) := by simp [enclose]
  have hlen : (before ++ [Token.opening b]).length = before.length + 1 := by simp
  rw [hshape, ← hlen, List.getElem?_append_right (by omega), Nat.add_sub_cancel_left,
    List.getElem?_append_left hk] at ht
  rw [hshape, ← hlen, List.take_length_add_append, List.drop_left,
    List.take_append_of_le_length (by omega)]
  refine ⟨inner.drop (k + 1), ?_⟩
  obtain ⟨_, rfl⟩ := List.getElem?_eq_some_iff.1 ht
  rw [← List.drop_eq_getElem_cons, List.take_append_drop]

namespace Expr

/-- A list in parentheses or square brackets holds a comma with no open bracket in front of it, and
no bracket in front of it that was never opened.  Then the list has two elements or more, or it
stops at a fault, unless it is nested too deeply. -/
theorem readList_separated (file : String) (line : Nat) {b : Bracket} {tokens : List Token}
    {start stop comma : Nat}
    (hscope : Scope.range? (.mark (.opening b)) (.mark (.closing b)) tokens 0 = some (start, stop))
    (hcomma : tokens[comma]? = some (.mark .comma)) (hlo : start < comma) (hhi : comma < stop)
    (hopen : ∀ b', b' ≠ .curly → Scope.unclosed b' 0 ((tokens.take comma).drop (start + 1)) = 0)
    (hclose : ∀ b', b' ≠ .curly → Scope.unopened b' 0 ((tokens.take comma).drop (start + 1)) = 0) :
    ∃ d, ∀ depth,
      let x := readList file (Expr.read file depth) (.mark (.opening b)) (.mark (.closing b)) line
        tokens
      (∃ n es, x.Yields n es ∧ 2 ≤ es.length) ∨ (∃ f, x.Faults f) ∨ depth < d ∧ ¬ x.Finishes := by
  obtain ⟨before, inner, tail, rfl, hb, hc, rfl, rfl⟩ := (Scope.range?_eq_some_iff _ _ _ _).1 hscope
  have hd := (Scope.depth_listScopes_eq_zero_iff hopen).2 hclose
  obtain ⟨back, hinner⟩ := Scope.exists_split hcomma hlo hhi
  generalize ((before ++ enclose b inner ++ tail).take comma).drop (before.length + 1) = front
    at hd hinner
  subst hinner
  refine ⟨Token.weights (front ++ .mark .comma :: back) + 1, fun depth => ?_⟩
  rcases readList_cases file depth line hb hc hd tail with h | h | h
  · exact Or.inl h
  · exact Or.inr (Or.inl h)
  · refine Or.inr (Or.inr ⟨Nat.lt_of_not_le fun hdepth => h ?_, h⟩)
    exact readList_finishes (w := depth) (fun line ts h => finishes_read file line h) line hb hc
      tail hdepth

/-- The list `(f(a), b)` has a comma behind a closed scope. -/
theorem readList_separated_call :
    let tokens := [.opening .round, .ident "f", .opening .round, .ident "a", .closing .round,
      .mark .comma, .ident "b", .closing .round]
    Scope.range? (.mark (.opening .round)) (.mark (.closing .round)) tokens 0 = some (0, 7)
      ∧ tokens[5]? = some (.mark .comma)
      ∧ ∃ d, ∀ depth,
        let x := readList "<string>" (Expr.read "<string>" depth) (.mark (.opening .round))
          (.mark (.closing .round)) 1 tokens
        (∃ n es, x.Yields n es ∧ 2 ≤ es.length) ∨ (∃ f, x.Faults f)
          ∨ depth < d ∧ ¬ x.Finishes := by
  intro tokens
  have hscope : Scope.range? (.mark (.opening .round)) (.mark (.closing .round)) tokens 0
      = some (0, 7) := by decide
  have hcomma : tokens[5]? = some (.mark .comma) := by decide
  refine ⟨hscope, hcomma, readList_separated "<string>" 1 hscope hcomma (by decide) (by decide)
    ?_ ?_⟩
  · rintro (_ | _ | _) -
    · decide
    · decide
    · decide
  · rintro (_ | _ | _) -
    · decide
    · decide
    · decide

/-- In `(], )` no bracket is open in front of the comma, and the list is read as an empty one all
the same: the closing bracket hides the comma, and what cannot be read is left out as one
element. -/
theorem readList_overlooks :
    let tokens := [.opening .round, .closing .square, .mark .comma, .closing .round]
    Scope.range? (.mark (.opening .round)) (.mark (.closing .round)) tokens 0 = some (0, 3)
      ∧ tokens[2]? = some (.mark .comma)
      ∧ (∀ b, b ≠ .curly → Scope.unclosed b 0 ((tokens.take 2).drop 1) = 0)
      ∧ ∀ depth, (readList "<string>" (Expr.read "<string>" (depth + 1)) (.mark (.opening .round))
          (.mark (.closing .round)) 1 tokens).Yields 1 [] := by
  refine ⟨by decide, by decide, ?_, fun _ => ⟨rfl, rfl⟩⟩
  rintro (_ | _ | _) -
  · decide
  · decide
  · decide

end Expr

end ModelScript
