import ModelScript.Proofs.Expression.Depth
import ModelScript.Proofs.Statement.Location

/-!
# How deep statements go

A body weighs less than the statement that it stands in, and so does a conditional behind `else` or
the type of the elements of a list.  So what bounds the depth of an expression bounds the depth of a
file: a reader that may go as deep as its tokens weigh, and one level more for each kind of thing
that stands on the way, is never too deep (`finishes_parseWithin`).
-/

namespace ModelScript

open Token (enclose weights)
open Reading (Finishes)

/-! ## Steps -/

theorem Unread.Reaches.weights_le {u v : Unread} (h : u.Reaches v) :
    weights v.tokens ≤ weights u.tokens := by
  obtain ⟨before, hu, -⟩ := h
  rw [hu, Token.weights_append]
  omega

theorem Unread.weights_lt_of_accept? {u v : Unread} {k : Kind} {t : Token}
    (h : u.accept? k = some (t, v)) : weights v.tokens < weights u.tokens := by
  have hpos := t.weight_pos
  rw [(Unread.eq_of_accept? h).1, Token.weights_cons]
  omega

namespace Reading.Finishes

variable {α β : Type} {file : String} {u : Unread}

theorem andThen {x : Reading (α × Unread)} {g : α × Unread → Reading β} (h : Finishes x)
    (hx : Logged.Located file u (fun a => u.Reaches a.2) x)
    (hg : ∀ a v, weights v.tokens ≤ weights u.tokens → Finishes (g (a, v))) :
    Finishes (x >>= g) :=
  h.bind fun a ha => hg a.1 a.2 (hx.result ⟨ha, rfl⟩).weights_le

end Reading.Finishes

namespace Unread

variable {file : String} {β : Type}

theorem require_finishes (k : Kind) (u : Unread) : Finishes (u.require file k) := by
  unfold require
  split
  · exact .pure _
  · exact .fault _ _ _

theorem identifier_finishes (u : Unread) : Finishes (u.identifier file) := by
  unfold identifier
  split
  · exact .pure _
  · exact .fault _ _ _

theorem requireEnd_finishes (u : Unread) : Finishes (u.requireEnd file) := by
  unfold requireEnd
  split
  · exact .pure _
  · exact .pure _
  · exact .fault _ _ _

theorem word_andThen_finishes (k : Keyword) (u : Unread) {g : Unread → Reading β}
    (hg : ∀ v, weights v.tokens ≤ weights u.tokens → Finishes (g v)) :
    Finishes (u.word file k >>= g) := by
  have hword : Finishes (u.word file k) := by
    unfold word
    rw [map_eq_pure_bind]
    exact (require_finishes _ u).bind fun _ _ => .pure _
  exact hword.bind fun v hv => hg v ((word_located k u).result ⟨hv, rfl⟩).weights_le

end Unread

namespace Inner

/-- What is known of the readers for what stands inside: they read what weighs less than `w`, and
statements with one level to spare for the values in them. -/
structure FinishesBelow (r : Inner) (w : Nat) : Prop where
  expression : ∀ (line : Nat) {ts : List Token}, weights ts < w → Finishes (r.expression line ts)
  type : ∀ {u : Unread}, weights u.tokens < w → Finishes (r.type u)
  statement : ∀ {u : Unread}, weights u.tokens + 1 < w → Finishes (r.statement u)
  located : r.Located

variable {r : Inner} {w : Nat} {α : Type} {u : Unread}

/-! ## Values, types and scopes -/

theorem FinishesBelow.value (hr : r.FinishesBelow w) (hw : weights u.tokens < w) :
    Finishes (r.value u) := by
  have htake := Token.weights_le_of_sublist
    (List.take_sublist (Unread.valueLength 0 none u.tokens) u.tokens)
  unfold Inner.value
  dsimp only
  split
  · exact .fault _ _ _
  · exact (hr.expression _ (by omega)).bind fun _ _ => .pure _

theorem FinishesBelow.readType (hr : r.FinishesBelow w) (hw : weights u.tokens < w + 1) :
    Finishes (r.readType u) := by
  refine (Unread.identifier_finishes u).andThen (Unread.identifier_located r.file u)
    fun name v hv => ?_
  dsimp only
  split
  · exact .pure _
  · next h =>
    have hlt := Unread.weights_lt_of_accept? h
    exact (hr.type (by omega)).bind fun _ _ => .pure _

theorem FinishesBelow.typeAfter (hr : r.FinishesBelow w) (k : Keyword)
    (hw : weights u.tokens < w) : Finishes (r.typeAfter k u) := by
  unfold Inner.typeAfter
  split
  · exact .pure _
  · next h =>
    have hlt := Unread.weights_lt_of_accept? h
    exact (hr.type (by omega)).bind fun _ _ => .pure _

theorem FinishesBelow.valueAfter (hr : r.FinishesBelow w) (k : Keyword)
    (hw : weights u.tokens < w) : Finishes (r.valueAfter k u) := by
  unfold Inner.valueAfter
  split
  · exact .pure _
  · next h =>
    have hlt := Unread.weights_lt_of_accept? h
    exact (hr.value (by omega)).bind fun _ _ => .pure _

/-- What a scope holds weighs less than the scope, by its two brackets. -/
theorem within_finishes (b : Bracket) {body : WholeReader α} (hw : weights u.tokens < w)
    (hbody : ∀ v : Unread, weights v.tokens + 1 < w → Finishes (body v)) :
    Finishes (r.within b body u) := by
  rcases within_eq_or (r := r) b body u with ⟨inner, tail, hu, -, he⟩ | ⟨p, -, he⟩
  · rw [hu, Token.weights_append, Token.weights_enclose] at hw
    rw [he]
    exact (hbody ⟨inner, u.line⟩ (by dsimp only; omega)).bind fun _ _ => .pure _
  · rw [he]
    exact .fault _ _ _

/-! ## Bodies -/

theorem lines_finishes {item : Reader α} {m : Nat} (hi : item.Located r.file)
    (hitem : ∀ {v : Unread}, weights v.tokens < m → Finishes (item v)) (fuel : Nat)
    (hu : weights u.tokens < m) : Finishes (r.lines item fuel u) := by
  have hskip := (Unread.reaches_skipNewlines u).weights_le
  induction fuel generalizing u with
  | zero =>
    unfold lines
    dsimp only
    split <;> first | exact .pure _ | contradiction
  | succ fuel ih =>
    by_cases hb : u.skipNewlines.tokens = []
    · rw [r.lines_of_blank item _ hb]
      exact .pure _
    · rw [r.lines_of_not_blank item fuel hb]
      refine (hitem (by omega)).andThen (hi _) fun a v hv => ?_
      refine (Unread.requireEnd_finishes v).bind fun _ _ => ?_
      exact (ih (by omega) (Unread.reaches_skipNewlines v).weights_le).bind fun _ _ => .pure _

theorem FinishesBelow.statements (hr : r.FinishesBelow w) (hw : weights u.tokens + 1 < w) :
    Finishes (r.statements u) :=
  lines_finishes (m := w - 1) hr.located.statement (fun hv => hr.statement (by omega)) _ (by omega)

theorem FinishesBelow.block (hr : r.FinishesBelow w) (hw : weights u.tokens < w) :
    Finishes (r.block u) := by
  have hskip := (Unread.reaches_skipNewlines u).weights_le
  exact within_finishes .curly (w := w) (by omega) fun _ hv => hr.statements hv

/-! ## Models -/

theorem FinishesBelow.parameter (hr : r.FinishesBelow w) (hw : weights u.tokens < w) :
    Finishes (r.parameter u) := by
  refine (Unread.identifier_finishes u).andThen (Unread.identifier_located r.file u)
    fun name v hv => ?_
  refine Unread.word_andThen_finishes _ v fun x hx => ?_
  exact (hr.type (by omega)).bind fun _ _ => .pure _

theorem FinishesBelow.parametersFrom (hr : r.FinishesBelow w) (fuel : Nat)
    (hw : weights u.tokens < w) : Finishes (r.parametersFrom fuel u) := by
  have hskip := (Unread.reaches_skipNewlines u).weights_le
  induction fuel generalizing u with
  | zero =>
    unfold Inner.parametersFrom
    dsimp only
    split <;> first | exact .pure _ | contradiction
  | succ fuel ih =>
    by_cases hb : u.skipNewlines.tokens = []
    · rw [r.parametersFrom_of_blank _ hb]
      exact .pure _
    · rw [r.parametersFrom_of_not_blank fuel hb]
      refine (hr.parameter (by omega)).andThen (hr.located.parameter _) fun p v hv => ?_
      have hskip' := (Unread.reaches_skipNewlines v).weights_le
      dsimp only
      split
      · exact .pure _
      · refine (Unread.require_finishes _ _).andThen (Unread.require_located r.file _ _)
          fun t x hx => ?_
        exact (ih (by omega) (Unread.reaches_skipNewlines x).weights_le).bind fun _ _ => .pure _

theorem FinishesBelow.member (hr : r.FinishesBelow w) (hw : weights u.tokens < w) :
    Finishes (r.member u) := by
  have hmodifiers := ((reaches_modifier .private' u).trans (reaches_modifier .static _)).weights_le
  unfold Inner.member
  dsimp only
  refine (Unread.identifier_finishes _).andThen (Unread.identifier_located r.file _)
    fun name v hv => ?_
  dsimp only
  split
  · next h =>
    have hlt := Unread.weights_lt_of_accept? h
    refine (hr.type (by omega)).andThen (hr.located.type _) fun type x hx => ?_
    dsimp only
    exact (hr.valueAfter .default (by omega)).bind fun _ _ => .pure _
  · refine (hr.typeAfter .return' (by omega)).andThen (hr.located.typeAfter _ _)
      fun returns x hx => ?_
    refine Unread.word_andThen_finishes _ x fun y hy => ?_
    refine (within_finishes .round (w := w) (by omega) fun v hv =>
      hr.parametersFrom _ (by omega)).andThen (within_located .round hr.located.parameters _)
      fun parameters z hz => ?_
    dsimp only
    exact (hr.block (by omega)).bind fun _ _ => .pure _

theorem FinishesBelow.members (hr : r.FinishesBelow w) (hw : weights u.tokens < w) :
    Finishes (r.members u) :=
  lines_finishes hr.located.member (fun hv => hr.member hv) _ hw

theorem FinishesBelow.model (hr : r.FinishesBelow w) (hw : weights u.tokens < w) :
    Finishes (r.model u) := by
  refine Unread.word_andThen_finishes _ u fun v hv => ?_
  refine (Unread.identifier_finishes _).andThen (Unread.identifier_located r.file _)
    fun name x hx => ?_
  have hskip := (Unread.reaches_skipNewlines x).weights_le
  exact (within_finishes .curly (w := w) (by omega) fun v hv =>
    hr.members (by omega)).bind fun _ _ => .pure _

/-! ## Variables and control flow -/

theorem FinishesBelow.declaration (hr : r.FinishesBelow w) (hw : weights u.tokens < w) :
    Finishes (r.declaration u) := by
  refine Unread.word_andThen_finishes _ u fun v hv => ?_
  refine (Unread.identifier_finishes _).andThen (Unread.identifier_located r.file _)
    fun name x hx => ?_
  refine (hr.typeAfter .as' (by omega)).andThen (hr.located.typeAfter _ _) fun type y hy => ?_
  refine Unread.word_andThen_finishes _ y fun z hz => ?_
  exact (hr.value (by omega)).bind fun _ _ => .pure _

theorem FinishesBelow.index (hr : r.FinishesBelow w) (hw : weights u.tokens < w) :
    Finishes (r.index u) := by
  have hskip := (Unread.reaches_skipNewlines u).weights_le
  unfold Inner.index
  dsimp only
  split
  · exact .fault _ _ _
  · exact (hr.expression _ (by omega)).bind fun _ _ => .pure _

theorem FinishesBelow.indexIfAny (hr : r.FinishesBelow w) (hw : weights u.tokens < w) :
    Finishes (r.indexIfAny u) := by
  unfold Inner.indexIfAny
  split
  · exact (within_finishes .square hw fun v hv => hr.index (by omega)).bind fun _ _ => .pure _
  · exact .pure _

theorem FinishesBelow.change (hr : r.FinishesBelow w) (hw : weights u.tokens < w) :
    Finishes (r.change u) := by
  refine Unread.word_andThen_finishes _ u fun v hv => ?_
  refine (Unread.identifier_finishes _).andThen (Unread.identifier_located r.file _)
    fun name x hx => ?_
  refine (hr.indexIfAny (by omega)).andThen (hr.located.indexIfAny _) fun index y hy => ?_
  refine Unread.word_andThen_finishes _ y fun z hz => ?_
  exact (hr.value (by omega)).bind fun _ _ => .pure _

/-- The keyword makes what follows it weigh less. -/
theorem FinishesBelow.otherwise (hr : r.FinishesBelow w) (hw : weights u.tokens < w) :
    Finishes (r.otherwise u) := by
  have hskip := (Unread.reaches_skipNewlines u).weights_le
  unfold Inner.otherwise
  split
  · exact .pure _
  · next h =>
    have hlt := Unread.weights_lt_of_accept? h
    split
    · exact (hr.statement (by omega)).bind fun _ _ => .pure _
    · exact (hr.block (by omega)).bind fun _ _ => .pure _

theorem FinishesBelow.conditional (hr : r.FinishesBelow w) (hw : weights u.tokens < w) :
    Finishes (r.conditional u) := by
  refine Unread.word_andThen_finishes _ u fun v hv => ?_
  refine (hr.value (by omega)).andThen (hr.located.value _) fun condition x hx => ?_
  refine (hr.block (by omega)).andThen (hr.located.block _) fun body y hy => ?_
  exact (hr.otherwise (by omega)).bind fun _ _ => .pure _

theorem FinishesBelow.loop (hr : r.FinishesBelow w) (hw : weights u.tokens < w) :
    Finishes (r.loop u) := by
  refine Unread.word_andThen_finishes _ u fun v hv => ?_
  refine (hr.value (by omega)).andThen (hr.located.value _) fun condition x hx => ?_
  exact (hr.block (by omega)).bind fun _ _ => .pure _

theorem FinishesBelow.result (hr : r.FinishesBelow w) (hw : weights u.tokens < w) :
    Finishes (r.result u) := by
  refine Unread.word_andThen_finishes _ u fun v hv => ?_
  split
  · exact .pure _
  · exact .pure _
  · exact (hr.value (by omega)).bind fun _ _ => .pure _

/-! ## Levels -/

theorem FinishesBelow.readStatement (hr : r.FinishesBelow w) (hw : weights u.tokens < w) :
    Finishes (r.readStatement u) := by
  unfold Inner.readStatement
  split
  · exact hr.model hw
  · exact hr.declaration hw
  · exact hr.change hw
  · exact hr.conditional hw
  · exact hr.loop hw
  · exact hr.result hw
  · exact (hr.value hw).bind fun _ _ => .pure _

/-- The readers at a level read what weighs less than the level is high. -/
theorem finishesBelow_atDepth (file : String) (depth : Nat) :
    (Inner.atDepth file depth).FinishesBelow depth := by
  have hexpression (depth line : Nat) {ts : List Token} (h : weights ts < depth) :
      Finishes ((Inner.atDepth file depth).expression line ts) := by
    rw [atDepth_expression]
    exact Expr.finishes_read file line h
  induction depth with
  | zero => exact ⟨hexpression 0, by omega, by omega, located_atDepth file 0⟩
  | succ depth ih =>
    exact ⟨hexpression _, fun h => ih.readType h, fun h => ih.readStatement (by omega),
      located_atDepth file _⟩

end Inner

/-- A file is not too deep for a reader that may go deeper than its tokens weigh. -/
theorem finishes_parseWithin (file : String) {depth : Nat} {u : Unread}
    (h : weights u.tokens + 1 < depth) : Finishes (parseWithin depth file u) := by
  refine ((Inner.finishesBelow_atDepth file depth).statements h).bind fun p _ => ?_
  exact Finishes.bind (by rintro ⟨⟩) fun _ _ => .pure _

end ModelScript
