import ModelScript.Proofs.Expression.Unbroken
import ModelScript.Proofs.Scope.Counting
import ModelScript.Proofs.Statement.Value
import ModelScript.Statement.Cursor

/-!
# Values over several lines

A value may be broken into lines inside of its brackets and next to its operators.  Then the cut
takes exactly its tokens: it does not end at one of the breaks (`length_le_valueLength`), and it
goes on into nothing that delimits a value (`valueLength_of_joined`).  What the value is read as
does not depend on the breaks (`value_of_joined`).

The cut counts the depth of brackets from its start on.  In the induction the tokens in front are
kept, so that this depth is the one behind them and the last of them is the one in front of a break.
-/

namespace ModelScript

open Token (unbroken)

/-- Every line break outside of brackets stands next to an operator: behind it, or in front of one
that is no prefix. -/
def Joined (ts : List Token) : Prop :=
  ∀ front back, ts = front ++ .newline :: back → Scope.depth Scope.listScopes front = 0 →
    (∃ op, (unbroken front).getLast? = some (.operator op)) ∨
    (∃ op, (unbroken front).getLast? = some (.prefixOperator op)) ∨
    ∃ op, Token.significant? back = some (.operator op)

/-- Line breaks continue a value next to an operator. -/
theorem Unread.continues_eq_true_iff (previous : Option Token) (following : List Token) :
    continues previous following = true ↔
      (∃ op, previous = some (.operator op)) ∨ (∃ op, previous = some (.prefixOperator op)) ∨
        ∃ op, Token.significant? following = some (.operator op) := by
  unfold continues
  rw [Bool.or_eq_true, ← or_assoc]
  refine or_congr ?_ ?_
  · cases previous with
    | none => simp
    | some t => cases t <;> simp
  · cases Token.significant? following with
    | none => simp
    | some t => cases t <;> simp

/-- Looking at each line break tells whether a value goes on behind all of them. -/
theorem joined_iff (ts : List Token) :
    Joined ts ↔ ∀ i, i < ts.length → ts[i]? = some .newline →
      Scope.depth Scope.listScopes (ts.take i) = 0 →
      Unread.continues (unbroken (ts.take i)).getLast? (ts.drop (i + 1)) = true := by
  constructor
  · intro h i hi hbreak hd
    obtain ⟨_, hget⟩ := List.getElem?_eq_some_iff.1 hbreak
    refine (Unread.continues_eq_true_iff _ _).2 (h (ts.take i) (ts.drop (i + 1)) ?_ hd)
    rw [← hget, ← List.drop_eq_getElem_cons, List.take_append_drop]
  · rintro h front back rfl hd
    have := h front.length (by simp) (by simp) (by rwa [List.take_left])
    rwa [List.take_left, ← List.drop_drop, List.drop_left, Unread.continues_eq_true_iff] at this

instance (ts : List Token) : Decidable (Joined ts) := decidable_of_iff _ (joined_iff ts).symm

/-- What delimits a value in front of it: the end of the tokens, a curly brace, the close of a
bracket, or a line break that no operator follows. -/
inductive Delimits : List Token → Prop
  | nil : Delimits []
  | opening (rest : List Token) : Delimits (.opening .curly :: rest)
  | closing (b : Bracket) (rest : List Token) : Delimits (.closing b :: rest)
  | newline {rest : List Token} (h : ∀ op, Token.significant? rest ≠ some (.operator op)) :
    Delimits (.newline :: rest)

theorem Scope.Balanced.ne_curly {commas : Bool} {ts : List Token} (h : Balanced commas ts) :
    ∀ t ∈ ts, t ≠ .opening .curly ∧ t ≠ .closing .curly := by
  induction h with
  | nil => simp
  | token commas ho hc _ => simpa using ⟨ho .curly, hc .curly⟩
  | scope commas hb _ ih => simpa [Token.enclose, or_imp, forall_and, hb] using ih
  | append _ _ ih ih' =>
    intro t ht
    rcases List.mem_append.1 ht with ht | ht
    · exact ih t ht
    · exact ih' t ht

/-- The depth of a value is the depth of parentheses and square brackets. -/
theorem Token.valueDepth?_eq {t : Token} (ho : t ≠ .opening .curly) (hc : t ≠ .closing .curly)
    {depth d : Nat} (h : (d : Int) = depth + Scope.step Scope.listScopes t) :
    t.valueDepth? depth = some d := by
  by_cases hopen : ∃ b, t = .opening b
  · obtain ⟨b, rfl⟩ := hopen
    have hb : b ≠ .curly := fun he => ho (he ▸ rfl)
    rw [Scope.step_listScopes_opening hb] at h
    obtain rfl : d = depth + 1 := by omega
    exact valueDepth?_opening depth hb
  by_cases hclose : ∃ b, t = .closing b
  · obtain ⟨b, rfl⟩ := hclose
    have hb : b ≠ .curly := fun he => hc (he ▸ rfl)
    rw [Scope.step_listScopes_closing hb] at h
    obtain rfl : depth = d + 1 := by omega
    exact valueDepth?_closing d hb
  · have ho' : ∀ b, t ≠ .opening b := fun b he => hopen ⟨b, he⟩
    have hc' : ∀ b, t ≠ .closing b := fun b he => hclose ⟨b, he⟩
    rw [Scope.step_listScopes_other ho' hc', Int.add_zero] at h
    obtain rfl : d = depth := by omega
    exact valueDepth?_other d ho' hc'

namespace Unread

/-- A break next to an operator continues a value, whatever stands behind its tokens. -/
theorem Joined.continues {front back : List Token} (h : Joined (front ++ .newline :: back))
    (hd : Scope.depth Scope.listScopes front = 0) (rest : List Token) :
    continues (unbroken front).getLast? (back ++ rest) = true := by
  rw [continues_eq_true_iff]
  refine (h front back rfl hd).imp id (Or.imp id ?_)
  rintro ⟨op, hnext⟩
  refine ⟨op, ?_⟩
  unfold Token.significant? at hnext ⊢
  rw [List.find?_append, hnext]
  rfl

/-- Whatever comes next, the cut takes all tokens up to the last one. -/
theorem length_le_valueLength (front : List Token) {ts : List Token}
    (hcurly : ∀ t ∈ ts, t ≠ .opening .curly ∧ t ≠ .closing .curly)
    (hdepth : ∀ part, part <+: front ++ ts → 0 ≤ Scope.depth Scope.listScopes part)
    (hj : Joined (front ++ ts)) {depth : Nat}
    (hd : (depth : Int) = Scope.depth Scope.listScopes front) (rest : List Token) :
    ts.length ≤ valueLength depth (unbroken front).getLast? (ts ++ rest) := by
  induction ts generalizing front depth with
  | nil => exact Nat.zero_le _
  | cons t ts ih =>
    have hstep : Scope.depth Scope.listScopes (front ++ [t])
        = depth + Scope.step Scope.listScopes t := by
      rw [Scope.depth_append, Scope.depth_cons, Scope.depth_nil, Int.add_zero, ← hd]
    have hnext {d : Nat} (hd : (d : Int) = Scope.depth Scope.listScopes (front ++ [t])) :
        ts.length ≤ valueLength d (unbroken (front ++ [t])).getLast? (ts ++ rest) :=
      ih (front ++ [t]) (fun t' h => hcurly t' (List.mem_cons_of_mem t h))
        (by simpa using hdepth) (by simpa using hj) hd
    rw [List.cons_append, List.length_cons]
    by_cases ht : t = .newline
    · subst ht
      have hsame : Scope.step Scope.listScopes .newline = 0 := rfl
      have hgo : ¬ (depth = 0 && !continues (unbroken front).getLast? (ts ++ rest)) = true := by
        intro h
        obtain ⟨hzero, hstop⟩ := Bool.and_eq_true_iff.1 h
        obtain rfl := of_decide_eq_true hzero
        rw [Joined.continues hj hd.symm] at hstop
        cases hstop
      have hlast : (unbroken (front ++ [.newline])).getLast? = (unbroken front).getLast? := by
        simp [Token.unbroken, Token.isNewline]
      rw [valueLength, if_neg hgo]
      have hd' : (depth : Int) = Scope.depth Scope.listScopes (front ++ [.newline]) := by
        rw [hstep, hsame, Int.add_zero]
      have := hnext hd'
      rw [hlast] at this
      omega
    · have hnonneg := hdepth (front ++ [t]) ⟨ts, by simp⟩
      obtain ⟨d, hd'⟩ := Int.eq_ofNat_of_zero_le hnonneg
      have hvalue := Token.valueDepth?_eq (hcurly t (by simp)).1 (hcurly t (by simp)).2
        (hd'.symm.trans hstep)
      have hlast : (unbroken (front ++ [t])).getLast? = some t := by
        rw [Token.unbroken_append, Token.unbroken_cons_of_ne ht]
        simp [Token.unbroken]
      rw [valueLength_cons ht, hvalue]
      have := hnext hd'.symm
      rw [hlast] at this
      exact Nat.succ_le_succ this

/-- Nothing of what delimits a value belongs to it. -/
theorem Delimits.valueLength_eq_zero {rest : List Token} (h : Delimits rest) {t : Token}
    (ho : ∀ op, t ≠ .operator op) (hp : ∀ op, t ≠ .prefixOperator op) :
    valueLength 0 (some t) rest = 0 := by
  cases h with
  | nil => rfl
  | opening rest => rfl
  | closing b rest => cases b <;> rfl
  | newline h =>
    have hprevious : ∀ t', some t = some t' →
        (∀ op, t' ≠ .operator op) ∧ ∀ op, t' ≠ .prefixOperator op := by
      rintro _ ⟨⟩
      exact ⟨ho, hp⟩
    have hstop := continues_eq_false hprevious fun t h' op ht => h op (ht ▸ h')
    rw [valueLength, hstop]
    rfl

/-- An expression in several lines is cut out whole, in front of what delimits it. -/
theorem valueLength_of_joined {ts rest : List Token} {e : Expr} (h : Derives (unbroken ts) e)
    (hj : Joined ts) (hr : Delimits rest) : valueLength 0 none (ts ++ rest) = ts.length := by
  have hbalanced := h.balanced.of_unbroken
  have hle : ts.length ≤ valueLength 0 none (ts ++ rest) :=
    length_le_valueLength [] hbalanced.ne_curly (fun _ => hbalanced.depth_nonneg) hj rfl
      rest
  obtain ⟨t, ht, hop, hpre⟩ := h.exists_getLast?
  rw [valueLength_append hbalanced 0 none rest fun _ => hle, ht, Option.some_or,
    Delimits.valueLength_eq_zero hr hop hpre, Nat.add_zero]

end Unread

/-- An expression in several lines is read as it is without its line breaks, if it may nest deep
enough. -/
theorem Expr.exists_yields_of_unbroken {ts : List Token} {e : Expr} (h : Derives (unbroken ts) e) :
    ∃ d, ∀ file depth line, d ≤ depth →
      ∃ n reached, (Expr.read file depth line ts).Yields n (e, reached) := by
  obtain ⟨d, hread⟩ := Expr.reads_of_derives h
  refine ⟨max d (Token.weights ts + 1), fun file depth line hd => ?_⟩
  obtain ⟨reached, hy⟩ := hread file depth (by omega) line
  rcases (ignoresBreaks_read file depth).agrees line line ts with hdeep | hagree
  · exact absurd hdeep (finishes_read file line (by omega))
  · rw [hy.1] at hagree
    cases ho : (Expr.read file depth line ts).outcome with
    | error stop =>
      rw [ho] at hagree
      cases hagree
    | ok p =>
      rw [ho] at hagree
      obtain ⟨e', reached'⟩ := p
      cases hagree with
      | ok hsame =>
        obtain rfl : e' = e := hsame
        exact ⟨_, reached', ho, rfl⟩

/-- A value that may be broken into lines, inside of its brackets and next to its operators, is cut
out exactly and read as the expression that its tokens derive without the line breaks. -/
theorem value_of_joined (file : String) (c : Cursor) {before ts after : List Token} {e : Expr}
    (htokens : c.tokens = before ++ ts ++ after) (hposition : c.position = before.length)
    (hderives : Derives (unbroken ts) e) (hjoined : Joined ts) (hafter : Delimits after) :
    c.valueEnd c.position = c.position + ts.length ∧
      ∃ d, ∀ depth, d ≤ depth → ∃ n, (c.run (Inner.atDepth file depth).value).Yields n
        (e, { c with
          position := c.position + ts.length
          line := c.line + Token.newlines ts }) := by
  obtain ⟨tokens, position, line⟩ := c
  dsimp only at htokens hposition ⊢
  subst htokens hposition
  have hunread : (before ++ ts ++ after).drop before.length = ts ++ after := by
    rw [List.append_assoc, List.drop_left]
  have hlength := Unread.valueLength_of_joined hderives hjoined hafter
  have hne : ts.length ≠ 0 := by
    intro hzero
    rw [List.eq_nil_of_length_eq_zero hzero] at hderives
    exact hderives.ne_nil rfl
  refine ⟨by rw [Cursor.valueEnd, hunread, hlength], ?_⟩
  obtain ⟨d, hread⟩ := Expr.exists_yields_of_unbroken hderives
  refine ⟨d, fun depth hd => ?_⟩
  obtain ⟨n, reached, hy⟩ := hread file depth line hd
  have hvalue : ((Inner.atDepth file depth).value ⟨ts ++ after, line⟩).Yields n
      (e, ⟨after, line + Token.newlines ts⟩) := by
    unfold Inner.value
    dsimp only
    rw [hlength, if_neg hne, Inner.atDepth_expression, List.take_left, Unread.skip, List.drop_left,
      List.take_left]
    exact (Logged.yields_bind _ _ _ _).2
      ⟨n, 0, _, hy, (Logged.yields_pure _ _ _).2 ⟨rfl, rfl⟩, rfl⟩
  have hend : (before ++ ts ++ after).length - after.length = before.length + ts.length := by
    simp only [List.length_append]
    omega
  refine ⟨n, ?_⟩
  unfold Cursor.run Cursor.unread
  dsimp only
  rw [hunread]
  refine (Logged.yields_bind _ _ _ _).2
    ⟨n, 0, _, hvalue, (Logged.yields_pure _ _ _).2 ⟨rfl, ?_⟩, rfl⟩
  simp only [Cursor.toUnread, hend]

/-- The value of `let x be a + f(b)`, broken behind its operator and inside of its parentheses. -/
theorem value_of_joined_call :
    let before := [.keyword .let', .ident "x", .keyword .be]
    let ts := [.ident "a", .operator "+", .newline, .ident "f", .opening .round, .newline,
      .ident "b", .closing .round]
    let after := [.newline, .newline, .keyword .return']
    let e := .operation (.atom .identifier "a") "+" (.call "f" [.atom .identifier "b"])
    Derives (unbroken ts) e ∧ Joined ts ∧ Delimits after ∧
      Cursor.valueEnd ⟨before ++ ts ++ after, 3, 1⟩ 3 = 11 ∧
      ∃ d, ∀ depth, d ≤ depth → ∃ n,
        ((Cursor.mk (before ++ ts ++ after) 3 1).run (Inner.atDepth "main" depth).value).Yields n
          (e, ⟨before ++ ts ++ after, 11, 3⟩) := by
  intro before ts after e
  have hderives : Derives (unbroken ts) e :=
    .operation "+" rfl (.atom rfl (by decide)) (.call "f" (.last (.atom rfl (by decide))))
  have hjoined : Joined ts := by decide
  have hafter : Delimits after := .newline (by simp [Token.significant?, Token.isNewline])
  exact ⟨hderives, hjoined, hafter,
    value_of_joined "main" ⟨before ++ ts ++ after, 3, 1⟩ rfl rfl hderives hjoined hafter⟩

end ModelScript
