import ModelScript.Proofs.Statement.Value
import ModelScript.Proofs.Statement.Written

/-!
# What the readers of statements take

`p.Takes ts a rest` says that the reader `p` takes exactly the tokens `ts` from in front of `rest`,
makes `a` of them without a warning and counts their line breaks.  Each reader takes the tokens that
write its part of a statement, over any readers for what stands inside.
-/

namespace ModelScript

open Token (enclose)
open Logged (yields_pure)

/-- The reader makes `a` of the tokens `ts` and leaves `rest`. -/
def Reader.Takes {α : Type} (p : Reader α) (ts : List Token) (a : α) (rest : List Token) : Prop :=
  ∀ line, (p ⟨ts ++ rest, line⟩).Yields 0 (a, ⟨rest, line + Token.newlines ts⟩)

/-- The reader makes `a` of all the tokens. -/
def WholeReader.Takes {α : Type} (p : WholeReader α) (ts : List Token) (a : α) : Prop :=
  ∀ line, (p ⟨ts, line⟩).Yields 0 (a, line + Token.newlines ts)

/-! ## Single tokens -/

namespace Unread

theorem word_cons (file : String) (k : Keyword) (ts : List Token) (line : Nat) :
    (⟨.keyword k :: ts, line⟩ : Unread).word file k = pure ⟨ts, line⟩ := by
  simp [word, require, accept?, Token.kind, skip]

theorem identifier_cons (file name : String) (ts : List Token) (line : Nat) :
    (⟨.ident name :: ts, line⟩ : Unread).identifier file = pure (name, ⟨ts, line⟩) := rfl

theorem require_mark_cons (file : String) (m : Mark) (ts : List Token) (line : Nat) :
    (⟨.mark m :: ts, line⟩ : Unread).require file (.mark m) = pure (.mark m, ⟨ts, line⟩) := by
  simp [require, accept?, Token.kind, skip]

theorem accept?_keyword_cons (k : Keyword) (ts : List Token) (line : Nat) :
    (⟨.keyword k :: ts, line⟩ : Unread).accept? (.keyword k) = some (.keyword k, ⟨ts, line⟩) := by
  simp [accept?, Token.kind, skip]

theorem accept?_eq_none {ts : List Token} {k : Keyword} (h : ts.head? ≠ some (.keyword k))
    (line : Nat) : (⟨ts, line⟩ : Unread).accept? (.keyword k) = none := by
  cases ts with
  | nil => rfl
  | cons t ts =>
    have ht : ¬ t.kind = .keyword k := by
      intro hk
      cases t <;> cases hk
      exact h rfl
    simp [accept?, ht]

theorem skipNewlines_of_ne {t : Token} (ht : t ≠ .newline) (ts : List Token) (line : Nat) :
    (⟨t :: ts, line⟩ : Unread).skipNewlines = ⟨t :: ts, line⟩ := by
  show (⟨Token.trimStart (t :: ts), line + Token.leadingNewlines (t :: ts)⟩ : Unread) = _
  rw [Token.trimStart_cons_of_ne ht, Token.leadingNewlines_cons_of_ne ht, Nat.add_zero]

theorem skipNewlines_newline_cons (ts : List Token) (line : Nat) :
    (⟨.newline :: ts, line⟩ : Unread).skipNewlines = (⟨ts, line + 1⟩ : Unread).skipNewlines := by
  show (⟨Token.trimStart (.newline :: ts), line + Token.leadingNewlines (.newline :: ts)⟩ : Unread)
    = ⟨Token.trimStart ts, line + 1 + Token.leadingNewlines ts⟩
  rw [Token.trimStart_newline_cons, Token.leadingNewlines_newline_cons]
  have hline : line + (Token.leadingNewlines ts + 1) = line + 1 + Token.leadingNewlines ts := by
    omega
  rw [hline]

theorem skipNewlines_blank_append {as : List Token} (ha : Token.Blank as) (ts : List Token)
    (line : Nat) : (⟨as ++ ts, line⟩ : Unread).skipNewlines
      = (⟨ts, line + Token.newlines as⟩ : Unread).skipNewlines := by
  induction as generalizing line with
  | nil => rfl
  | cons a as ih =>
    obtain ⟨rfl, has⟩ := (Token.blank_cons _ _).1 ha
    rw [List.cons_append, skipNewlines_newline_cons, ih has, Token.newlines_newline_cons,
      Nat.add_right_comm, Nat.add_assoc]

theorem skipNewlines_of_blank {as : List Token} (ha : Token.Blank as) (line : Nat) :
    (⟨as, line⟩ : Unread).skipNewlines = ⟨[], line + Token.newlines as⟩ := by
  have h := skipNewlines_blank_append ha [] line
  rw [List.append_nil] at h
  exact h

theorem skipNewlines_enclose (b : Bracket) (ts rest : List Token) (line : Nat) :
    (⟨enclose b ts ++ rest, line⟩ : Unread).skipNewlines = ⟨enclose b ts ++ rest, line⟩ := by
  rw [Token.enclose_append]
  exact skipNewlines_of_ne (by simp) _ line

theorem requireEnd_of_ends (file : String) {rest : List Token} (h : Ends rest) (line : Nat) :
    (⟨rest, line⟩ : Unread).requireEnd file = pure () := by
  cases h <;> rfl

end Unread

namespace Inner

variable (r : Inner) {α : Type}

/-! ## Types -/

/-- The reader of types takes the tokens of the type, unless `of` stands behind them. -/
def TakesType (t : TypeRef) : Prop :=
  ∀ rest, rest.head? ≠ some (.keyword .of) → r.type.Takes t.tokens t rest

variable {r}

theorem readType_takes_plain (name : String) {rest : List Token}
    (h : rest.head? ≠ some (.keyword .of)) :
    r.readType.Takes (TypeRef.plain name).tokens (.plain name) rest := by
  intro line
  unfold readType
  rw [TypeRef.tokens, List.singleton_append, Unread.identifier_cons, pure_bind]
  dsimp only
  rw [Unread.accept?_eq_none h]
  exact (yields_pure _ _ _).2 ⟨rfl, by simp⟩

theorem readType_takes_of (name : String) {t : TypeRef} {rest : List Token}
    (ht : r.type.Takes t.tokens t rest) :
    r.readType.Takes (TypeRef.of name t).tokens (.of name t) rest := by
  intro line
  unfold readType
  rw [TypeRef.tokens, List.cons_append, List.cons_append, Unread.identifier_cons, pure_bind]
  dsimp only
  rw [Unread.accept?_keyword_cons]
  exact (ht line).bind_zero ((yields_pure _ _ _).2 ⟨rfl, by simp⟩)

theorem typeAfter_takes (k : Keyword) {type : Option TypeRef} (rest : List Token)
    (ht : ∀ t, type = some t → r.TakesType t) (hof : rest.head? ≠ some (.keyword .of))
    (hk : rest.head? ≠ some (.keyword k)) :
    (r.typeAfter k).Takes (tokensAfter k type) type rest := by
  intro line
  unfold typeAfter
  cases type with
  | none =>
    rw [tokensAfter, List.nil_append, Unread.accept?_eq_none hk]
    exact (yields_pure _ _ _).2 ⟨rfl, rfl⟩
  | some t =>
    rw [tokensAfter, List.cons_append, Unread.accept?_keyword_cons]
    exact (ht t rfl rest hof line).bind_zero ((yields_pure _ _ _).2 ⟨rfl, by simp⟩)

/-! ## Values -/

theorem value_takes {ts rest : List Token} {e : Expr} (h : Derives ts e)
    (hr : Expr.Accepts r.expression ts e) (hs : Stops rest) : r.value.Takes ts e rest := by
  intro line
  have hlen := Unread.valueLength_of_derives h hs
  have hpos : ¬ ts.length = 0 := fun h0 => h.ne_nil (List.eq_nil_of_length_eq_zero h0)
  obtain ⟨reached, hy⟩ := hr line
  unfold value
  simp only [hlen, if_neg hpos, List.take_left]
  refine hy.bind_zero ((yields_pure _ _ _).2 ⟨rfl, ?_⟩)
  simp [Unread.skip]

theorem valueAfter_takes_nothing (k : Keyword) {rest : List Token}
    (h : rest.head? ≠ some (.keyword k)) : (r.valueAfter k).Takes [] none rest := by
  intro line
  unfold valueAfter
  rw [List.nil_append, Unread.accept?_eq_none h]
  exact (yields_pure _ _ _).2 ⟨rfl, rfl⟩

theorem valueAfter_takes_value (k : Keyword) {ts rest : List Token} {e : Expr}
    (h : r.value.Takes ts e rest) : (r.valueAfter k).Takes (.keyword k :: ts) (some e) rest := by
  intro line
  unfold valueAfter
  rw [List.cons_append, Unread.accept?_keyword_cons]
  exact (h line).bind_zero ((yields_pure _ _ _).2 ⟨rfl, by simp⟩)

/-! ## Scopes -/

theorem within_eq {b : Bracket} (body : WholeReader α) {ts : List Token} (hc : Scope.Closes b ts)
    (rest : List Token) (line : Nat) :
    r.within b body ⟨enclose b ts ++ rest, line⟩ = do
      let (a, last) ← body ⟨ts, line⟩
      return (a, ⟨rest, last⟩) := by
  have hclose := (Scope.close?_eq_some_iff b (ts ++ .closing b :: rest) ts.length).2
    ⟨ts, rest, rfl, hc, rfl⟩
  have hdrop : (ts ++ .closing b :: rest).drop (ts.length + 1) = rest := by
    rw [List.append_cons, List.drop_left' (by simp)]
  unfold within
  rw [Token.enclose_append, Unread.require_mark_cons, pure_bind]
  dsimp only
  rw [hclose]
  dsimp only
  rw [List.take_left, hdrop]

theorem within_takes {b : Bracket} {body : WholeReader α} {ts : List Token} {a : α}
    (hc : Scope.Closes b ts) (hb : body.Takes ts a) (rest : List Token) :
    (r.within b body).Takes (enclose b ts) a rest := by
  intro line
  rw [within_eq body hc]
  exact (hb line).bind_zero ((yields_pure _ _ _).2 ⟨rfl, by simp [enclose]⟩)

/-! ## Lines -/

/-- Tokens that an item of a body is read from, wherever the item ends. -/
structure Item (item : Reader α) (ts : List Token) (a : α) : Prop where
  starts : ∃ t rest, ts = t :: rest ∧ t.Starts
  passes : Scope.Passes .curly ts
  takes : ∀ rest, Ends rest → item.Takes ts a rest

theorem starts_of_lines {item : Reader α} {ts : List Token} {as : List α}
    (h : Lines (Item item) ts as) : ∀ t, Token.significant? ts = some t → t.Starts := by
  have hfirst {ts rest : List Token} {a : α} (h : Item item ts a) :
      ∀ t, Token.significant? (ts ++ rest) = some t → t.Starts := by
    obtain ⟨t, ts, rfl, hs⟩ := h.starts
    intro t' ht'
    have := Construct.significant?_blank_append Token.Blank.nil hs.1 (ts ++ rest)
    rw [List.cons_append, ← List.nil_append (t :: _), this] at ht'
    cases ht'
    exact hs
  induction h with
  | nil => intro t ht; cases ht
  | newline h ih => exact ih
  | last h =>
    rename_i ts a
    rw [← List.append_nil ts]
    exact hfirst h
  | cons h _ _ => exact hfirst h

theorem passes_of_lines {item : Reader α} {ts : List Token} {as : List α}
    (h : Lines (Item item) ts as) : Scope.Passes .curly ts := by
  induction h with
  | nil => exact .nil _
  | newline h ih => exact ih.newline
  | last h => exact h.passes
  | cons h _ ih => exact h.passes.append ih.newline

theorem lines_newline (item : Reader α) (fuel : Nat) (ts : List Token) (line : Nat) :
    r.lines item fuel ⟨.newline :: ts, line⟩ = r.lines item fuel ⟨ts, line + 1⟩ := by
  unfold lines
  rw [Unread.skipNewlines_newline_cons]

theorem lines_nil (r : Inner) (item : Reader α) (fuel : Nat) (line : Nat) :
    r.lines item fuel ⟨[], line⟩ = pure ([], line) :=
  r.lines_of_blank item fuel rfl

theorem lines_item {item : Reader α} {ts rest : List Token} {a : α} {as : List α}
    {fuel line last : Nat} (h : Item item ts a) (he : Ends rest) (hf : ts.length ≤ fuel)
    (hl : (r.lines item (fuel - 1) ⟨rest, line + Token.newlines ts⟩).Yields 0 (as, last)) :
    (r.lines item fuel ⟨ts ++ rest, line⟩).Yields 0 (a :: as, last) := by
  obtain ⟨t, us, rfl, hs⟩ := h.starts
  obtain ⟨fuel, rfl⟩ : ∃ k, fuel = k + 1 := ⟨fuel - 1, by simp at hf; omega⟩
  have hskip := Unread.skipNewlines_of_ne hs.1 (us ++ rest) line
  rw [← List.cons_append] at hskip
  rw [r.lines_of_not_blank item fuel (by rw [hskip]; simp), hskip]
  refine (h.takes rest he line).bind_zero ?_
  dsimp only
  rw [Unread.requireEnd_of_ends _ he, pure_bind]
  exact hl.bind_zero ((yields_pure _ _ _).2 ⟨rfl, rfl⟩)

theorem lines_takes {item : Reader α} {ts : List Token} {as : List α}
    (h : Lines (Item item) ts as) {fuel : Nat} (hf : ts.length ≤ fuel) (line : Nat) :
    (r.lines item fuel ⟨ts, line⟩).Yields 0 (as, line + Token.newlines ts) := by
  induction h generalizing fuel line with
  | nil =>
    rw [lines_nil]
    exact (yields_pure _ _ _).2 ⟨rfl, rfl⟩
  | newline h ih =>
    have hrest := ih (Nat.le_of_succ_le hf) (line + 1)
    rw [lines_newline, Token.newlines_newline_cons, Nat.add_comm (Token.newlines _),
      ← Nat.add_assoc]
    exact hrest
  | @last ts a h =>
    have hl := lines_nil r item (fuel - 1) (line + Token.newlines ts)
    rw [← List.append_nil ts]
    refine lines_item h .nil hf ?_
    rw [hl, List.append_nil]
    exact (yields_pure _ _ _).2 ⟨rfl, rfl⟩
  | @cons ts rest a as h h' ih =>
    have hpos : 0 < ts.length := by
      obtain ⟨t, us, rfl, -⟩ := h.starts
      simp
    refine lines_item h (.newline (starts_of_lines h')) (by simp at hf; omega) ?_
    rw [lines_newline]
    have hrest : rest.length ≤ fuel - 1 := by simp at hf; omega
    have := ih hrest (line + Token.newlines ts + 1)
    rwa [Token.newlines_append, Token.newlines_newline_cons, Nat.add_comm (Token.newlines rest),
      ← Nat.add_assoc, ← Nat.add_assoc]

/-! ## Bodies -/

theorem statements_takes {ts : List Token} {body : List Statement}
    (h : Lines (Item r.statement) ts body) : r.statements.Takes ts body :=
  fun line => lines_takes h (Nat.le_refl _) line

theorem members_takes {ts : List Token} {members : List Member}
    (h : Lines (Item r.member) ts members) : r.members.Takes ts members :=
  fun line => lines_takes h (Nat.le_refl _) line

theorem within_skipNewlines_takes {b : Bracket} {body : WholeReader α} {breaks ts : List Token}
    {a : α} (hbreaks : Token.Blank breaks) (hc : Scope.Closes b ts) (hb : body.Takes ts a)
    (rest : List Token) :
    Reader.Takes (fun u => r.within b body u.skipNewlines) (breaks ++ enclose b ts) a rest := by
  intro line
  dsimp only
  rw [List.append_assoc, Unread.skipNewlines_blank_append hbreaks, Unread.skipNewlines_enclose,
    Token.newlines_append, ← Nat.add_assoc]
  exact within_takes hc hb rest _

theorem block_takes {breaks ts : List Token} {body : List Statement}
    (hbreaks : Token.Blank breaks) (hc : Scope.Closes .curly ts) (hb : r.statements.Takes ts body)
    (rest : List Token) : r.block.Takes (breaks ++ enclose .curly ts) body rest :=
  within_skipNewlines_takes hbreaks hc hb rest

theorem model_takes (name : String) {breaks ts : List Token} {members : List Member}
    (hbreaks : Token.Blank breaks) (hc : Scope.Closes .curly ts) (hm : r.members.Takes ts members)
    (rest : List Token) :
    r.model.Takes (.keyword .describe :: .ident name :: (breaks ++ enclose .curly ts))
      (.model name members) rest := by
  intro line
  unfold model
  simp only [List.cons_append]
  rw [Unread.word_cons, pure_bind, Unread.identifier_cons, pure_bind]
  refine (within_skipNewlines_takes hbreaks hc hm rest line).bind_zero ?_
  exact (yields_pure _ _ _).2 ⟨rfl, by simp⟩

/-! ## Variables -/

theorem declaration_takes (name : String) {type : Option TypeRef} {ts rest : List Token} {e : Expr}
    (ht : ∀ t, type = some t → r.TakesType t) (hv : r.value.Takes ts e rest) :
    r.declaration.Takes
      (.keyword .let' :: .ident name :: (tokensAfter .as' type ++ .keyword .be :: ts))
      (.declaration name e type) rest := by
  intro line
  have h := typeAfter_takes .as' (.keyword .be :: (ts ++ rest)) ht (by simp) (by simp)
  unfold declaration
  simp only [List.cons_append, List.append_assoc]
  rw [Unread.word_cons, pure_bind, Unread.identifier_cons, pure_bind]
  refine (h line).bind_zero ?_
  dsimp only
  rw [Unread.word_cons, pure_bind]
  refine (hv _).bind_zero ?_
  exact (yields_pure _ _ _).2 ⟨rfl, by simp; omega⟩

theorem index_takes {ts : List Token} {e : Expr} (h : Derives ts e)
    (hr : Expr.Accepts r.expression ts e) : r.index.Takes ts e := by
  intro line
  obtain ⟨t, us, rfl⟩ := List.exists_cons_of_ne_nil h.ne_nil
  obtain ⟨reached, hy⟩ := hr line
  unfold index
  rw [Unread.skipNewlines_of_ne (h.ne_newline t (by simp))]
  refine hy.bind_zero ((yields_pure _ _ _).2 ⟨rfl, ?_⟩)
  simp [Unread.skip]

theorem indexIfAny_takes_nothing {rest : List Token} (h : rest.head? ≠ some (.opening .square)) :
    r.indexIfAny.Takes [] none rest := by
  intro line
  have hs : (⟨rest, line⟩ : Unread).startsWith (.mark (.opening .square)) = false := by
    cases rest with
    | nil => rfl
    | cons t rest =>
      have ht : t.kind ≠ .mark (.opening .square) := by
        intro hk
        exact h (by rw [(Token.kind_eq_mark_iff t _).1 hk]; rfl)
      simpa [Unread.startsWith, Unread.kind?] using ht
  unfold indexIfAny
  rw [List.nil_append, hs]
  exact (yields_pure _ _ _).2 ⟨rfl, rfl⟩

theorem indexIfAny_takes_index {ts : List Token} {e : Expr} (h : Derives ts e)
    (hr : Expr.Accepts r.expression ts e) (rest : List Token) :
    r.indexIfAny.Takes (enclose .square ts) (some e) rest := by
  intro line
  have hw := within_takes (r := r) (h.balanced.closes .square) (index_takes h hr) rest line
  exact hw.bind_zero ((yields_pure _ _ _).2 ⟨rfl, rfl⟩)

theorem change_takes (name : String) {ti ts rest : List Token} {index : Option Expr} {e : Expr}
    (hi : ∀ rest, rest.head? ≠ some (.opening .square) → r.indexIfAny.Takes ti index rest)
    (hv : r.value.Takes ts e rest) :
    r.change.Takes (.keyword .make :: .ident name :: (ti ++ .keyword .be :: ts))
      (.change name e index) rest := by
  intro line
  unfold change
  simp only [List.cons_append, List.append_assoc]
  rw [Unread.word_cons, pure_bind, Unread.identifier_cons, pure_bind]
  refine (hi (.keyword .be :: (ts ++ rest)) (by simp) line).bind_zero ?_
  dsimp only
  rw [Unread.word_cons, pure_bind]
  refine (hv _).bind_zero ?_
  exact (yields_pure _ _ _).2 ⟨rfl, by simp; omega⟩

/-! ## Control flow -/

theorem otherwise_takes_nothing {rest : List Token} (h : Ends rest) :
    r.otherwise.Takes [] none rest := by
  intro line
  have hskip : (⟨rest, line⟩ : Unread).skipNewlines.accept? (.keyword .else') = none := by
    refine Unread.accept?_eq_none ?_ _
    cases h with
    | nil => simp [Token.trimStart]
    | newline h =>
      rw [Token.trimStart_newline_cons, Token.head?_trimStart]
      exact fun hs => (h _ hs).2.2 rfl
  unfold otherwise
  rw [List.nil_append, hskip]
  exact (yields_pure _ _ _).2 ⟨rfl, rfl⟩

theorem otherwise_takes_block {ts rest : List Token} {body : List Statement}
    (hb : r.block.Takes (enclose .curly ts) body rest) :
    r.otherwise.Takes (.keyword .else' :: enclose .curly ts) (some body) rest := by
  intro line
  have hs : (⟨enclose .curly ts ++ rest, line⟩ : Unread).startsWith (.keyword .if') = false := rfl
  unfold otherwise
  rw [List.cons_append, Unread.skipNewlines_of_ne (by simp), Unread.accept?_keyword_cons]
  dsimp only
  rw [hs]
  exact (hb line).bind_zero ((yields_pure _ _ _).2 ⟨rfl, by simp⟩)

theorem otherwise_takes_chain {ts rest : List Token} {s : Statement}
    (h : r.statement.Takes (.keyword .if' :: ts) s rest) :
    r.otherwise.Takes (.keyword .else' :: .keyword .if' :: ts) (some [s]) rest := by
  intro line
  have hs : (⟨.keyword .if' :: ts ++ rest, line⟩ : Unread).startsWith (.keyword .if') = true := rfl
  unfold otherwise
  rw [List.cons_append, Unread.skipNewlines_of_ne (by simp), Unread.accept?_keyword_cons]
  dsimp only
  rw [hs, if_pos rfl]
  exact (h line).bind_zero ((yields_pure _ _ _).2 ⟨rfl, by simp⟩)

theorem conditional_takes {tc tb te rest : List Token} {e : Expr} {body : List Statement}
    {otherwise : Option (List Statement)} (hv : r.value.Takes tc e (tb ++ (te ++ rest)))
    (hb : r.block.Takes tb body (te ++ rest)) (ho : r.otherwise.Takes te otherwise rest) :
    r.conditional.Takes (.keyword .if' :: (tc ++ (tb ++ te))) (.conditional e body otherwise)
      rest := by
  intro line
  unfold conditional
  simp only [List.cons_append, List.append_assoc]
  rw [Unread.word_cons, pure_bind]
  refine (hv line).bind_zero ((hb _).bind_zero ((ho _).bind_zero ?_))
  exact (yields_pure _ _ _).2 ⟨rfl, by simp; omega⟩

theorem loop_takes {tc tb rest : List Token} {e : Expr} {body : List Statement}
    (hv : r.value.Takes tc e (tb ++ rest)) (hb : r.block.Takes tb body rest) :
    r.loop.Takes (.keyword .while' :: (tc ++ tb)) (.loop e body) rest := by
  intro line
  unfold loop
  simp only [List.cons_append, List.append_assoc]
  rw [Unread.word_cons, pure_bind]
  refine (hv line).bind_zero ((hb _).bind_zero ?_)
  exact (yields_pure _ _ _).2 ⟨rfl, by simp; omega⟩

theorem result_takes_nothing {rest : List Token} (h : Ends rest) :
    r.result.Takes [.keyword .return'] (.result none) rest := by
  intro line
  unfold result
  rw [List.singleton_append, Unread.word_cons, pure_bind]
  cases h <;> exact (yields_pure _ _ _).2 ⟨rfl, rfl⟩

theorem result_takes_value {ts rest : List Token} {e : Expr} (h : Derives ts e)
    (hv : r.value.Takes ts e rest) :
    r.result.Takes (.keyword .return' :: ts) (.result (some e)) rest := by
  intro line
  have hn := h.ne_newline
  obtain ⟨t, us, rfl⟩ := List.exists_cons_of_ne_nil h.ne_nil
  unfold result
  rw [List.cons_append, Unread.word_cons, pure_bind]
  dsimp only
  split
  · next heq => simp at heq
  · next heq => exact absurd (List.cons.inj heq).1 (hn t (by simp))
  · exact (hv line).bind_zero ((yields_pure _ _ _).2 ⟨rfl, by simp⟩)

/-! ## Members -/

theorem modifier_append (k : Keyword) (b : Bool) {rest : List Token}
    (h : rest.head? ≠ some (.keyword k)) (line : Nat) :
    modifier k ⟨modifierTokens k b ++ rest, line⟩ = (b, ⟨rest, line⟩) := by
  unfold modifier
  cases b with
  | false => rw [modifierTokens, List.nil_append, Unread.accept?_eq_none h]
  | true => rw [modifierTokens, List.singleton_append, Unread.accept?_keyword_cons]

theorem newlines_modifierTokens (k : Keyword) (b : Bool) :
    Token.newlines (modifierTokens k b) = 0 := by
  cases b <;> simp [modifierTokens]

theorem parameter_takes (name : String) {t : TypeRef} (ht : r.TakesType t) (rest : List Token)
    (h : rest.head? ≠ some (.keyword .of)) :
    r.parameter.Takes (.ident name :: .keyword .as' :: t.tokens) ⟨name, t⟩ rest := by
  intro line
  unfold parameter
  simp only [List.cons_append]
  rw [Unread.identifier_cons, pure_bind]
  dsimp only
  rw [Unread.word_cons, pure_bind]
  exact (ht rest h line).bind_zero ((yields_pure _ _ _).2 ⟨rfl, by simp⟩)

theorem skipNewlines_parameterTokens (p : Parameter) {as : List Token} (ha : Token.Blank as)
    (rest : List Token) (line : Nat) :
    (⟨as ++ (parameterTokens [p] ++ rest), line⟩ : Unread).skipNewlines
      = ⟨parameterTokens [p] ++ rest, line + Token.newlines as⟩ := by
  rw [Unread.skipNewlines_blank_append ha]
  exact Unread.skipNewlines_of_ne (by simp) _ _

theorem head?_append_ne_of {bs : List Token} (hb : Token.Blank bs) (rest : List Token)
    (h : rest.head? ≠ some (.keyword .of)) : (bs ++ rest).head? ≠ some (.keyword .of) := by
  cases bs with
  | nil => exact h
  | cons b bs =>
    obtain ⟨rfl, -⟩ := (Token.blank_cons _ _).1 hb
    simp

theorem parametersFrom_takes {ts : List Token} {ps : List Parameter}
    (h : ListsParameters ts ps) (hr : ∀ p ∈ ps, r.TakesType p.type) {fuel : Nat}
    (hf : ts.length ≤ fuel) (line : Nat) :
    (r.parametersFrom fuel ⟨ts, line⟩).Yields 0 (ps, line + Token.newlines ts) := by
  induction h generalizing fuel line with
  | nothing hb =>
    have hskip := Unread.skipNewlines_of_blank hb line
    rw [r.parametersFrom_of_blank fuel (by rw [hskip]), hskip]
    exact (yields_pure _ _ _).2 ⟨rfl, rfl⟩
  | @last p as bs ha hb =>
    obtain ⟨fuel, rfl⟩ : ∃ k, fuel = k + 1 := ⟨fuel - 1, by simp [parameterTokens] at hf; omega⟩
    have hskip := skipNewlines_parameterTokens p ha bs line
    have hof := head?_append_ne_of hb [] (by simp)
    rw [List.append_nil] at hof
    have hp := parameter_takes p.name (hr p (by simp)) bs hof (line + Token.newlines as)
    rw [r.parametersFrom_of_not_blank fuel (by rw [hskip]; simp [parameterTokens]), hskip]
    refine hp.bind_zero ?_
    dsimp only
    rw [Unread.skipNewlines_of_blank hb]
    dsimp only
    rw [if_pos List.isEmpty_nil]
    exact (yields_pure _ _ _).2 ⟨rfl, by simp [parameterTokens]; omega⟩
  | @cons p as bs rest ps ha hb _ ih =>
    obtain ⟨fuel, rfl⟩ : ∃ k, fuel = k + 1 := ⟨fuel - 1, by simp at hf; omega⟩
    have hskip := skipNewlines_parameterTokens p ha (bs ++ .mark .comma :: rest) line
    have hp := parameter_takes p.name (hr p (by simp)) (bs ++ .mark .comma :: rest)
      (head?_append_ne_of hb _ (by simp)) (line + Token.newlines as)
    rw [r.parametersFrom_of_not_blank fuel (by rw [hskip]; simp [parameterTokens]), hskip]
    refine hp.bind_zero ?_
    dsimp only
    rw [Unread.skipNewlines_blank_append hb, Unread.skipNewlines_of_ne (by simp), if_neg (by simp),
      Unread.require_mark_cons, pure_bind]
    have hfuel : rest.length ≤ fuel := by simp at hf; omega
    refine (ih (fun q hq => hr q (.tail _ hq)) hfuel _).bind_zero ((yields_pure _ _ _).2 ⟨rfl, ?_⟩)
    simp [parameterTokens]
    omega

theorem parameters_takes {ps : List Parameter} (h : ∀ p ∈ ps, r.TakesType p.type) :
    r.parameters.Takes (parameterTokens ps) ps :=
  fun line => parametersFrom_takes (lists_parameterTokens ps) h (Nat.le_refl _) line

theorem member_takes_property (name : String) {type : TypeRef} (m : Modifiers)
    {initial : Option Expr} {ts rest : List Token} (ht : r.TakesType type)
    (hv : (r.valueAfter .default).Takes ts initial rest)
    (hof : (ts ++ rest).head? ≠ some (.keyword .of)) :
    r.member.Takes (modifierTokens .private' m.isPrivate ++ (modifierTokens .static m.isStatic
      ++ .ident name :: .keyword .as' :: (type.tokens ++ ts))) (.property name type m initial)
      rest := by
  intro line
  unfold member
  simp only [List.append_assoc, List.cons_append]
  rw [modifier_append _ _ (by cases m.isStatic <;> simp [modifierTokens])]
  dsimp only
  rw [modifier_append _ _ (by simp)]
  dsimp only
  rw [Unread.identifier_cons, pure_bind]
  dsimp only
  rw [Unread.accept?_keyword_cons]
  refine (ht (ts ++ rest) hof line).bind_zero ?_
  refine (hv _).bind_zero ?_
  exact (yields_pure _ _ _).2 ⟨rfl, by simp [newlines_modifierTokens]; omega⟩

theorem member_takes_function (name : String) {parameters : List Parameter}
    {returns : Option TypeRef} (m : Modifiers) {tp tb rest : List Token} {body : List Statement}
    (hr : ∀ t, returns = some t → r.TakesType t) (hc : Scope.Closes .round tp)
    (hp : r.parameters.Takes tp parameters) (hb : r.block.Takes tb body rest) :
    r.member.Takes (modifierTokens .private' m.isPrivate ++ (modifierTokens .static m.isStatic
      ++ .ident name :: (tokensAfter .return' returns ++ .keyword .from'
        :: (enclose .round tp ++ tb)))) (.function name parameters body returns m) rest := by
  intro line
  unfold member
  simp only [List.append_assoc, List.cons_append]
  rw [modifier_append _ _ (by cases m.isStatic <;> simp [modifierTokens])]
  dsimp only
  rw [modifier_append _ _ (by simp)]
  dsimp only
  rw [Unread.identifier_cons, pure_bind]
  dsimp only
  rw [Unread.accept?_eq_none (by cases returns <;> simp [tokensAfter])]
  refine (typeAfter_takes .return' _ hr (by simp) (by simp) line).bind_zero ?_
  dsimp only
  rw [Unread.word_cons, pure_bind]
  refine (within_takes hc hp (tb ++ rest) _).bind_zero ((hb _).bind_zero ?_)
  exact (yields_pure _ _ _).2 ⟨rfl, by simp [newlines_modifierTokens]; omega⟩

end Inner

end ModelScript
