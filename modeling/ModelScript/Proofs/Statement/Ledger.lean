import ModelScript.Proofs.Expression.Ledger
import ModelScript.Statement.Parser

/-!
# What a file is made of

The readers of statements keep the ledger of the reader of expressions.  `Took n u v ds` says that
the tokens between two points of a reading are accounted for by the values `ds`; one reader after
the other puts these together, and each level of readers keeps the ledger that the level below it
keeps (`keeps_atDepth`).  So all tokens of a file are accounted for by its statements
(`accounted_of_parse`).
-/

namespace ModelScript

open Token (enclose)
open Logged (yields_bind yields_pure yields_pure_pair)

/-! ## Values -/

def TypeRef.data : TypeRef → List Datum
  | plain name => [.atom .identifier name]
  | of name element => .atom .identifier name :: element.data

def Parameter.data (p : Parameter) : List Datum := .atom .identifier p.name :: p.type.data

def optionData {α : Type} (data : α → List Datum) : Option α → List Datum
  | none => []
  | some a => data a

mutual

/-- The names, literals, operators and prefixes in a statement, in source order. -/
def Statement.data : Statement → List Datum
  | .block body => Statement.listData body
  | .model name members => .atom .identifier name :: Member.listData members
  | .member member => member.data
  | .parameter parameter => parameter.data
  | .type type => type.data
  | .declaration name value type =>
    .atom .identifier name :: (optionData TypeRef.data type ++ value.data)
  | .change name value index =>
    .atom .identifier name :: (optionData Expr.data index ++ value.data)
  | .conditional condition body none => condition.data ++ Statement.listData body
  | .conditional condition body (some otherwise) =>
    condition.data ++ (Statement.listData body ++ Statement.listData otherwise)
  | .loop condition body => condition.data ++ Statement.listData body
  | .result value => optionData Expr.data value
  | .bare value => value.data

/-- The values in statements one after the other. -/
def Statement.listData : List Statement → List Datum
  | [] => []
  | s :: ss => s.data ++ Statement.listData ss

/-- The values in a member of a model, in source order. -/
def Member.data : Member → List Datum
  | .property name type _ initial =>
    .atom .identifier name :: (type.data ++ optionData Expr.data initial)
  | .function name parameters body returns _ =>
    .atom .identifier name :: (optionData TypeRef.data returns ++
      (parameters.flatMap Parameter.data ++ Statement.listData body))

def Member.listData : List Member → List Datum
  | [] => []
  | m :: ms => m.data ++ Member.listData ms

end

/-! ## Steps of a reading -/

/-- The tokens between two points of a reading, and the values made of them. -/
def Took (n : Nat) (u v : Unread) (ds : List Datum) : Prop :=
  ∃ ts, u.tokens = ts ++ v.tokens ∧ Accounted n ts ds

namespace Took

variable {m n : Nat} {u v w : Unread} {ds es : List Datum}

theorem refl (u : Unread) : Took 0 u u [] := ⟨[], rfl, .nil⟩

theorem trans (h : Took m u v ds) (h' : Took n v w es) : Took (m + n) u w (ds ++ es) := by
  obtain ⟨ts, hu, ht⟩ := h
  obtain ⟨us, hv, hus⟩ := h'
  exact ⟨ts ++ us, by rw [hu, hv, List.append_assoc], ht.append hus⟩

theorem length_le (h : Took n u v ds) : v.tokens.length ≤ u.tokens.length := by
  obtain ⟨ts, hu, -⟩ := h
  rw [hu, List.length_append]
  omega

theorem accounted (h : Took m u v ds) (h' : Accounted n v.tokens es) :
    Accounted (m + n) u.tokens (ds ++ es) := by
  obtain ⟨ts, hu, ht⟩ := h
  exact hu ▸ ht.append h'

theorem cons {t : Token} (hu : u.tokens = t :: v.tokens) (ht : Accounted 0 [t] ds)
    (h : Took n v w es) : Took n u w (ds ++ es) := by
  obtain ⟨us, hv, hus⟩ := h
  exact ⟨t :: us, by rw [hu, hv]; rfl, ht.cons hus⟩

end Took

/-- The reader accounts for the tokens that it takes. -/
def Reader.Keeps {α : Type} (p : Reader α) (data : α → List Datum) : Prop :=
  ∀ {u v n a}, (p u).Yields n (a, v) → Took n u v (data a)

/-- The reader accounts for the tokens that it takes, and takes one at least. -/
def Reader.KeepsItem {α : Type} (p : Reader α) (data : α → List Datum) : Prop :=
  ∀ {u v n a}, (p u).Yields n (a, v) → Took n u v (data a) ∧ v.tokens.length < u.tokens.length

/-- The reader accounts for all the tokens. -/
def WholeReader.Keeps {α : Type} (p : WholeReader α) (data : α → List Datum) : Prop :=
  ∀ {u n a line}, (p u).Yields n (a, line) → Accounted n u.tokens (data a)

namespace Unread

variable {file : String} {u v : Unread} {n : Nat}

theorem eq_of_accept? {k : Kind} {t : Token} (h : u.accept? k = some (t, v)) :
    u.tokens = t :: v.tokens ∧ t.kind = k := by
  unfold accept? at h
  split at h
  · next t' ts hu =>
    split at h
    · next hk =>
      cases h
      exact ⟨by simp [hu, skip], hk⟩
    · cases h
  · cases h

theorem eq_of_require {k : Kind} {t : Token} (h : (u.require file k).Yields n (t, v)) :
    n = 0 ∧ u.tokens = t :: v.tokens ∧ t.kind = k := by
  unfold require at h
  split at h
  · next ht =>
    obtain ⟨rfl, rfl⟩ := (yields_pure _ _ _).1 h
    exact ⟨rfl, eq_of_accept? ht⟩
  · exact absurd h (Logged.not_yields_fault _ _ _ _ _)

theorem eq_keyword_of_kind {t : Token} {k : Keyword} (h : t.kind = .keyword k) :
    t = .keyword k := by
  cases t <;> cases h
  rfl

theorem eq_of_word {k : Keyword} (h : (u.word file k).Yields n v) :
    n = 0 ∧ u.tokens = .keyword k :: v.tokens := by
  obtain ⟨⟨t, v'⟩, hr, rfl⟩ := (Logged.yields_map _ _ _ _).1 h
  obtain ⟨rfl, hu, hk⟩ := eq_of_require hr
  obtain rfl := eq_keyword_of_kind hk
  exact ⟨rfl, hu⟩

theorem eq_of_identifier {name : String} (h : (u.identifier file).Yields n (name, v)) :
    n = 0 ∧ u.tokens = .ident name :: v.tokens := by
  unfold identifier at h
  split at h
  · next name' ts hu =>
    obtain ⟨rfl, rfl, rfl⟩ := (yields_pure_pair _ _ _ _ _).1 h
    exact ⟨rfl, by simp [hu, skip]⟩
  · exact absurd h (Logged.not_yields_fault _ _ _ _ _)

end Unread

section

variable {n : Nat} {u v w : Unread} {ds : List Datum}

theorem took_of_word {file : String} {k : Keyword} (h : (u.word file k).Yields n v) :
    Took n u v [] := by
  obtain ⟨rfl, hu⟩ := Unread.eq_of_word h
  exact ⟨[.keyword k], hu, .keyword k⟩

theorem took_of_identifier {file name : String} (h : (u.identifier file).Yields n (name, v)) :
    Took n u v [.atom .identifier name] := by
  obtain ⟨rfl, hu⟩ := Unread.eq_of_identifier h
  exact ⟨[.ident name], hu, .ident name⟩

theorem Took.of_accept? {k : Keyword} {t : Token} (h : u.accept? (.keyword k) = some (t, v))
    (h' : Took n v w ds) : Took n u w ds := by
  obtain ⟨hu, hk⟩ := Unread.eq_of_accept? h
  obtain rfl := Unread.eq_keyword_of_kind hk
  exact .cons hu (.keyword k) h'

theorem Took.of_skipNewlines (h : Took n u.skipNewlines w ds) : Took n u w ds := by
  obtain ⟨ts, hts, ha⟩ := h
  obtain ⟨as, hb, he, -⟩ := Token.exists_eq_trimStart u.tokens
  refine ⟨as ++ ts, ?_, ?_⟩
  · rw [List.append_assoc, ← hts]
    exact he
  · have := ha.between hb Token.Blank.nil
    rwa [List.append_nil] at this

end

namespace Inner

/-- The readers for what stands inside a statement account for their tokens. -/
structure Keeps (r : Inner) : Prop where
  expression : ∀ {line n ts e reached}, (r.expression line ts).Yields n (e, reached) →
    Accounted n ts e.data
  type : r.type.Keeps TypeRef.data
  statement : r.statement.KeepsItem Statement.data

variable {r : Inner} {α : Type} {data : α → List Datum}

/-! ## Scopes and lines -/

/-- A scope is accounted for by what it holds. -/
theorem within_keeps (b : Bracket) {body : WholeReader α} (hb : body.Keeps data) :
    (r.within b body).KeepsItem data := by
  intro u v n a h
  unfold within at h
  obtain ⟨_, k, ⟨t, rest⟩, hreq, h1, rfl⟩ := (yields_bind _ _ _ _).1 h
  obtain ⟨rfl, hu, hk⟩ := Unread.eq_of_require hreq
  obtain rfl := (Token.kind_eq_mark_iff t _).1 hk
  dsimp only at h1
  split at h1
  · exact absurd h1 (Logged.not_yields_fault _ _ _ _ _)
  · next length hlen =>
    obtain ⟨inner, after, hrest, -, rfl⟩ := (Scope.close?_eq_some_iff b _ _).1 hlen
    obtain ⟨m, k, ⟨a', line⟩, ha, h2, rfl⟩ := (yields_bind _ _ _ _).1 h1
    obtain ⟨rfl, rfl, rfl⟩ := (yields_pure_pair _ _ _ _ _).1 h2
    have hacc := hb ha
    have hdrop : rest.tokens.drop (inner.length + 1) = after := by
      rw [hrest, List.append_cons, List.drop_left' (by simp)]
    dsimp only at hacc ⊢
    rw [hrest, List.take_left] at hacc
    rw [hdrop]
    rw [hrest] at hu
    refine ⟨⟨enclose b inner, ?_, ?_⟩, ?_⟩
    · rw [hu, Token.enclose_append]
    · simpa using hacc.scope b
    · rw [hu]
      simp
      omega

/-- The end of a statement is a line break or nothing. -/
theorem eq_zero_of_requireEnd {file : String} {u : Unread} {n : Nat} {a : Unit}
    (h : (u.requireEnd file).Yields n a) : n = 0 := by
  unfold Unread.requireEnd at h
  split at h
  · exact ((yields_pure _ _ _).1 h).1
  · exact ((yields_pure _ _ _).1 h).1
  · exact absurd h (Logged.not_yields_fault _ _ _ _ _)

/-- The fuel of a body never runs out, since each item takes a token. -/
theorem lines_keeps {item : Reader α} (hi : item.KeepsItem data) {fuel n line : Nat} {u : Unread}
    {as : List α} (hf : u.tokens.length ≤ fuel) (h : (r.lines item fuel u).Yields n (as, line)) :
    Accounted n u.tokens (as.flatMap data) := by
  induction fuel generalizing n line u as with
  | zero =>
    have hu : u.tokens = [] := List.eq_nil_of_length_eq_zero (Nat.le_zero.1 hf)
    have hblank : u.skipNewlines.tokens = [] := by simp [Unread.skipNewlines, hu, Token.trimStart]
    rw [r.lines_of_blank item 0 hblank] at h
    obtain ⟨rfl, rfl, rfl⟩ := (yields_pure_pair _ _ _ _ _).1 h
    rw [hu]
    exact .nil
  | succ fuel ih =>
    by_cases hblank : u.skipNewlines.tokens = []
    · rw [r.lines_of_blank item _ hblank] at h
      obtain ⟨rfl, rfl, rfl⟩ := (yields_pure_pair _ _ _ _ _).1 h
      exact accounted_of_blank ((Token.trimStart_eq_nil_iff _).1 hblank)
    · rw [r.lines_of_not_blank item fuel hblank] at h
      obtain ⟨m, k, ⟨a, v⟩, ha, h1, rfl⟩ := (yields_bind _ _ _ _).1 h
      obtain ⟨ht, hlt⟩ := hi ha
      have hskip := (Took.refl u.skipNewlines).of_skipNewlines.length_le
      obtain ⟨i, j, _, he, h2, rfl⟩ := (yields_bind _ _ _ _).1 h1
      obtain rfl := eq_zero_of_requireEnd he
      obtain ⟨j, i, ⟨rest, last⟩, hrest, h3, rfl⟩ := (yields_bind _ _ _ _).1 h2
      obtain ⟨rfl, rfl, rfl⟩ := (yields_pure_pair _ _ _ _ _).1 h3
      have hacc := ht.of_skipNewlines.accounted (ih (by omega) hrest)
      simpa using hacc

/-! ## Values and types -/

theorem Keeps.value (hr : r.Keeps) : r.value.KeepsItem Expr.data := by
  intro u v n e h
  unfold Inner.value at h
  dsimp only at h
  split at h
  · exact absurd h (Logged.not_yields_fault _ _ _ _ _)
  · next hlen =>
    obtain ⟨m, k, ⟨e', reached⟩, he, h1, rfl⟩ := (yields_bind _ _ _ _).1 h
    obtain ⟨rfl, rfl, rfl⟩ := (yields_pure_pair _ _ _ _ _).1 h1
    have hpos : 0 < u.tokens.length := by
      rw [List.length_pos_iff]
      intro hu
      rw [hu] at hlen
      exact hlen rfl
    refine ⟨⟨_, (List.take_append_drop _ _).symm, hr.expression he⟩, ?_⟩
    simp only [Unread.skip, List.length_drop]
    omega

theorem Keeps.readType (hr : r.Keeps) : r.readType.Keeps TypeRef.data := by
  intro u v n t h
  unfold Inner.readType at h
  obtain ⟨m, k, ⟨name, u1⟩, hname, h1, rfl⟩ := (yields_bind _ _ _ _).1 h
  dsimp only at h1
  split at h1
  · obtain ⟨rfl, rfl, rfl⟩ := (yields_pure_pair _ _ _ _ _).1 h1
    exact (took_of_identifier hname).trans (.refl _)
  · next t' u2 ha =>
    obtain ⟨m', k, ⟨element, u3⟩, ht, h2, rfl⟩ := (yields_bind _ _ _ _).1 h1
    obtain ⟨rfl, rfl, rfl⟩ := (yields_pure_pair _ _ _ _ _).1 h2
    exact (took_of_identifier hname).trans (.of_accept? ha (hr.type ht))

theorem Keeps.typeAfter (hr : r.Keeps) (k : Keyword) :
    (r.typeAfter k).Keeps (optionData TypeRef.data) := by
  intro u v n t h
  unfold Inner.typeAfter at h
  split at h
  · obtain ⟨rfl, rfl, rfl⟩ := (yields_pure_pair _ _ _ _ _).1 h
    exact .refl _
  · next t' u1 ha =>
    obtain ⟨m, j, ⟨type, u2⟩, ht, h1, rfl⟩ := (yields_bind _ _ _ _).1 h
    obtain ⟨rfl, rfl, rfl⟩ := (yields_pure_pair _ _ _ _ _).1 h1
    exact .of_accept? ha (hr.type ht)

theorem Keeps.valueAfter (hr : r.Keeps) (k : Keyword) :
    (r.valueAfter k).Keeps (optionData Expr.data) := by
  intro u v n e h
  unfold Inner.valueAfter at h
  split at h
  · obtain ⟨rfl, rfl, rfl⟩ := (yields_pure_pair _ _ _ _ _).1 h
    exact .refl _
  · next t' u1 ha =>
    obtain ⟨m, j, ⟨value, u2⟩, hv, h1, rfl⟩ := (yields_bind _ _ _ _).1 h
    obtain ⟨rfl, rfl, rfl⟩ := (yields_pure_pair _ _ _ _ _).1 h1
    exact .of_accept? ha (hr.value hv).1

/-! ## Bodies -/

theorem Keeps.statements (hr : r.Keeps) : r.statements.Keeps (List.flatMap Statement.data) :=
  fun h => lines_keeps hr.statement (Nat.le_refl _) h

theorem Keeps.block (hr : r.Keeps) : r.block.KeepsItem (List.flatMap Statement.data) := by
  intro u v n body h
  obtain ⟨ht, hlt⟩ := within_keeps .curly hr.statements h
  have hskip := (Took.refl u.skipNewlines).of_skipNewlines.length_le
  exact ⟨ht.of_skipNewlines, by omega⟩

/-! ## Variables and control flow -/

theorem took_after_word {file : String} {k : Keyword} {m n : Nat} {u v w : Unread}
    {ds : List Datum} (hw : (u.word file k).Yields m v) (ht : Took n v w ds) :
    Took (m + n) u w ds ∧ w.tokens.length < u.tokens.length := by
  have hlen := ht.length_le
  refine ⟨(took_of_word hw).trans ht, ?_⟩
  rw [(Unread.eq_of_word hw).2, List.length_cons]
  omega

theorem Keeps.declaration (hr : r.Keeps) : r.declaration.KeepsItem Statement.data := by
  intro u v n s h
  obtain ⟨m, k, u1, hw, h1, rfl⟩ := (yields_bind _ _ _ _).1 h
  obtain ⟨m1, k, ⟨name, u2⟩, hname, h2, rfl⟩ := (yields_bind _ _ _ _).1 h1
  obtain ⟨m2, k, ⟨type, u3⟩, ht, h3, rfl⟩ := (yields_bind _ _ _ _).1 h2
  obtain ⟨m3, k, u4, hbe, h4, rfl⟩ := (yields_bind _ _ _ _).1 h3
  obtain ⟨m4, k, ⟨value, u5⟩, hv, h5, rfl⟩ := (yields_bind _ _ _ _).1 h4
  obtain ⟨rfl, rfl, rfl⟩ := (yields_pure_pair _ _ _ _ _).1 h5
  have htype := hr.typeAfter .as' ht
  have hvalue := (took_of_word hbe).trans (hr.value hv).1
  refine took_after_word hw ?_
  rw [Statement.data]
  exact (took_of_identifier hname).trans (htype.trans hvalue)

theorem Keeps.index (hr : r.Keeps) : r.index.Keeps Expr.data := by
  intro u n e line h
  unfold Inner.index at h
  dsimp only at h
  split at h
  · exact absurd h (Logged.not_yields_fault _ _ _ _ _)
  · obtain ⟨m, k, ⟨e', reached⟩, he, h1, rfl⟩ := (yields_bind _ _ _ _).1 h
    obtain ⟨rfl, rfl, rfl⟩ := (yields_pure_pair _ _ _ _ _).1 h1
    obtain ⟨as, ha, htokens, -⟩ := Token.exists_eq_trimStart u.tokens
    have hacc := (hr.expression he).between ha Token.Blank.nil
    rw [List.append_nil] at hacc
    rw [htokens]
    exact hacc

theorem Keeps.indexIfAny (hr : r.Keeps) : r.indexIfAny.Keeps (optionData Expr.data) := by
  intro u v n index h
  unfold Inner.indexIfAny at h
  split at h
  · obtain ⟨m, k, ⟨e, u1⟩, he, h1, rfl⟩ := (yields_bind _ _ _ _).1 h
    obtain ⟨rfl, rfl, rfl⟩ := (yields_pure_pair _ _ _ _ _).1 h1
    exact (within_keeps .square hr.index he).1
  · obtain ⟨rfl, rfl, rfl⟩ := (yields_pure_pair _ _ _ _ _).1 h
    exact .refl _

theorem Keeps.change (hr : r.Keeps) : r.change.KeepsItem Statement.data := by
  intro u v n s h
  obtain ⟨m, k, u1, hw, h1, rfl⟩ := (yields_bind _ _ _ _).1 h
  obtain ⟨m1, k, ⟨name, u2⟩, hname, h2, rfl⟩ := (yields_bind _ _ _ _).1 h1
  obtain ⟨m2, k, ⟨index, u3⟩, hi, h3, rfl⟩ := (yields_bind _ _ _ _).1 h2
  obtain ⟨m3, k, u4, hbe, h4, rfl⟩ := (yields_bind _ _ _ _).1 h3
  obtain ⟨m4, k, ⟨value, u5⟩, hv, h5, rfl⟩ := (yields_bind _ _ _ _).1 h4
  obtain ⟨rfl, rfl, rfl⟩ := (yields_pure_pair _ _ _ _ _).1 h5
  have hindex := hr.indexIfAny hi
  have hvalue := (took_of_word hbe).trans (hr.value hv).1
  refine took_after_word hw ?_
  rw [Statement.data]
  exact (took_of_identifier hname).trans (hindex.trans hvalue)

theorem Keeps.otherwise (hr : r.Keeps) :
    r.otherwise.Keeps (optionData (List.flatMap Statement.data)) := by
  intro u v n o h
  unfold Inner.otherwise at h
  split at h
  · obtain ⟨rfl, rfl, rfl⟩ := (yields_pure_pair _ _ _ _ _).1 h
    exact .refl _
  · next t u1 ha =>
    split at h
    · obtain ⟨m, k, ⟨s, u2⟩, hs, h1, rfl⟩ := (yields_bind _ _ _ _).1 h
      obtain ⟨rfl, rfl, rfl⟩ := (yields_pure_pair _ _ _ _ _).1 h1
      have ht := (hr.statement hs).1
      rw [optionData, List.flatMap_singleton]
      exact (Took.of_accept? ha ht).of_skipNewlines
    · obtain ⟨m, k, ⟨body, u2⟩, hb, h1, rfl⟩ := (yields_bind _ _ _ _).1 h
      obtain ⟨rfl, rfl, rfl⟩ := (yields_pure_pair _ _ _ _ _).1 h1
      exact (Took.of_accept? ha (hr.block hb).1).of_skipNewlines

theorem listData_eq_flatMap (ss : List Statement) :
    Statement.listData ss = ss.flatMap Statement.data := by
  induction ss with
  | nil => rw [Statement.listData, List.flatMap_nil]
  | cons s ss ih => rw [Statement.listData, ih, List.flatMap_cons]

theorem Keeps.conditional (hr : r.Keeps) : r.conditional.KeepsItem Statement.data := by
  intro u v n s h
  obtain ⟨m, k, u1, hw, h1, rfl⟩ := (yields_bind _ _ _ _).1 h
  obtain ⟨m1, k, ⟨condition, u2⟩, hc, h2, rfl⟩ := (yields_bind _ _ _ _).1 h1
  obtain ⟨m2, k, ⟨body, u3⟩, hb, h3, rfl⟩ := (yields_bind _ _ _ _).1 h2
  obtain ⟨m3, k, ⟨o, u4⟩, ho, h4, rfl⟩ := (yields_bind _ _ _ _).1 h3
  obtain ⟨rfl, rfl, rfl⟩ := (yields_pure_pair _ _ _ _ _).1 h4
  have hcondition := (hr.value hc).1
  have hbody := (hr.block hb).1
  refine took_after_word hw ?_
  have hdata : (Statement.conditional condition body o).data = condition.data ++
      (body.flatMap Statement.data ++ optionData (List.flatMap Statement.data) o) := by
    cases o with
    | none => simp [Statement.data, optionData, listData_eq_flatMap]
    | some o => simp [Statement.data, optionData, listData_eq_flatMap]
  rw [hdata]
  exact hcondition.trans (hbody.trans (hr.otherwise ho))

theorem Keeps.loop (hr : r.Keeps) : r.loop.KeepsItem Statement.data := by
  intro u v n s h
  obtain ⟨m, k, u1, hw, h1, rfl⟩ := (yields_bind _ _ _ _).1 h
  obtain ⟨m1, k, ⟨condition, u2⟩, hc, h2, rfl⟩ := (yields_bind _ _ _ _).1 h1
  obtain ⟨m2, k, ⟨body, u3⟩, hb, h3, rfl⟩ := (yields_bind _ _ _ _).1 h2
  obtain ⟨rfl, rfl, rfl⟩ := (yields_pure_pair _ _ _ _ _).1 h3
  refine took_after_word hw ?_
  rw [Statement.data, listData_eq_flatMap]
  exact (hr.value hc).1.trans (hr.block hb).1

theorem Keeps.result (hr : r.Keeps) : r.result.KeepsItem Statement.data := by
  intro u v n s h
  obtain ⟨m, k, u1, hw, h1, rfl⟩ := (yields_bind _ _ _ _).1 h
  refine took_after_word hw ?_
  split at h1
  · obtain ⟨rfl, rfl, rfl⟩ := (yields_pure_pair _ _ _ _ _).1 h1
    rw [Statement.data]
    exact .refl _
  · obtain ⟨rfl, rfl, rfl⟩ := (yields_pure_pair _ _ _ _ _).1 h1
    rw [Statement.data]
    exact .refl _
  · obtain ⟨m1, k, ⟨value, u2⟩, hv, h2, rfl⟩ := (yields_bind _ _ _ _).1 h1
    obtain ⟨rfl, rfl, rfl⟩ := (yields_pure_pair _ _ _ _ _).1 h2
    rw [Statement.data]
    exact (hr.value hv).1

/-! ## Models -/

theorem Keeps.parameter (hr : r.Keeps) : r.parameter.KeepsItem Parameter.data := by
  intro u v n p h
  obtain ⟨m, k, ⟨name, u1⟩, hname, h1, rfl⟩ := (yields_bind _ _ _ _).1 h
  obtain ⟨m1, k, u2, has, h2, rfl⟩ := (yields_bind _ _ _ _).1 h1
  obtain ⟨m2, k, ⟨type, u3⟩, ht, h3, rfl⟩ := (yields_bind _ _ _ _).1 h2
  obtain ⟨rfl, rfl, rfl⟩ := (yields_pure_pair _ _ _ _ _).1 h3
  have hrest := (took_of_word has).trans (hr.type ht)
  have hlen := hrest.length_le
  refine ⟨(took_of_identifier hname).trans hrest, ?_⟩
  rw [(Unread.eq_of_identifier hname).2, List.length_cons]
  omega

theorem Keeps.parametersFrom (hr : r.Keeps) {fuel n line : Nat} {u : Unread}
    {ps : List Parameter} (hf : u.tokens.length ≤ fuel)
    (h : (r.parametersFrom fuel u).Yields n (ps, line)) :
    Accounted n u.tokens (ps.flatMap Parameter.data) := by
  have hblank {fuel n line : Nat} {u : Unread} {ps : List Parameter}
      (hb : u.skipNewlines.tokens = []) (h : (r.parametersFrom fuel u).Yields n (ps, line)) :
      Accounted n u.tokens (ps.flatMap Parameter.data) := by
    rw [r.parametersFrom_of_blank fuel hb] at h
    obtain ⟨rfl, rfl, rfl⟩ := (yields_pure_pair _ _ _ _ _).1 h
    exact accounted_of_blank ((Token.trimStart_eq_nil_iff _).1 hb)
  induction fuel generalizing n line u ps with
  | zero =>
    have hu : u.tokens = [] := List.eq_nil_of_length_eq_zero (Nat.le_zero.1 hf)
    exact hblank (by simp [Unread.skipNewlines, hu, Token.trimStart]) h
  | succ fuel ih =>
    by_cases hb : u.skipNewlines.tokens = []
    · exact hblank hb h
    · rw [r.parametersFrom_of_not_blank fuel hb] at h
      obtain ⟨m, k, ⟨p, v⟩, hp, h1, rfl⟩ := (yields_bind _ _ _ _).1 h
      obtain ⟨ht, hlt⟩ := hr.parameter hp
      have hskip := (Took.refl u.skipNewlines).of_skipNewlines.length_le
      have hskip' := (Took.refl v.skipNewlines).of_skipNewlines.length_le
      dsimp only at h1
      split at h1
      · next hend =>
        obtain ⟨rfl, rfl, rfl⟩ := (yields_pure_pair _ _ _ _ _).1 h1
        have hv := (Token.trimStart_eq_nil_iff _).1 (List.isEmpty_iff.1 hend)
        simpa using ht.of_skipNewlines.accounted (accounted_of_blank hv)
      · obtain ⟨i, j, ⟨t, w⟩, hcomma, h2, rfl⟩ := (yields_bind _ _ _ _).1 h1
        obtain ⟨rfl, hw, hk⟩ := Unread.eq_of_require hcomma
        obtain rfl := (Token.kind_eq_mark_iff t _).1 hk
        obtain ⟨j, i, ⟨rest, last⟩, hrest, h3, rfl⟩ := (yields_bind _ _ _ _).1 h2
        obtain ⟨rfl, rfl, rfl⟩ := (yields_pure_pair _ _ _ _ _).1 h3
        have hlen : w.tokens.length < v.skipNewlines.tokens.length := by
          rw [hw, List.length_cons]
          omega
        have hcons : Took 0 v w [] :=
          (Took.cons hw (Accounted.silent (.inr (.inl rfl))) (.refl w)).of_skipNewlines
        have hacc := (ht.of_skipNewlines.trans hcons).accounted (ih (by omega) hrest)
        simpa using hacc

theorem Keeps.parameters (hr : r.Keeps) : r.parameters.Keeps (List.flatMap Parameter.data) :=
  fun h => hr.parametersFrom (Nat.le_refl _) h

theorem took_of_modifier {k : Keyword} {n : Nat} {u v : Unread} {ds : List Datum}
    (h : Took n (modifier k u).2 v ds) : Took n u v ds := by
  unfold modifier at h
  split at h
  · exact h
  · next t w ha => exact .of_accept? ha h

theorem Keeps.member (hr : r.Keeps) : r.member.KeepsItem Member.data := by
  intro u v n a h
  unfold Inner.member at h
  dsimp only at h
  obtain ⟨m, k, ⟨name, u1⟩, hname, h1, rfl⟩ := (yields_bind _ _ _ _).1 h
  -- The name is there whatever modifiers are, so a token is taken.
  suffices ht : Took k u1 v (a.data.tail) ∧ a.data = .atom .identifier name :: a.data.tail by
    obtain ⟨ht, hd⟩ := ht
    have hlen := ht.length_le
    have hall := (took_of_identifier hname).trans ht
    have hrefl := Took.refl (modifier .static (modifier .private' u).2).2
    have hu := took_of_modifier (took_of_modifier hrefl)
    rw [List.singleton_append, ← hd] at hall
    refine ⟨took_of_modifier (took_of_modifier hall), ?_⟩
    have hle := hu.length_le
    rw [(Unread.eq_of_identifier hname).2, List.length_cons] at hle
    omega
  split at h1
  · next t u2 ha =>
    obtain ⟨m1, k, ⟨type, u3⟩, ht, h2, rfl⟩ := (yields_bind _ _ _ _).1 h1
    obtain ⟨m2, k, ⟨initial, u4⟩, hv, h3, rfl⟩ := (yields_bind _ _ _ _).1 h2
    obtain ⟨rfl, rfl, rfl⟩ := (yields_pure_pair _ _ _ _ _).1 h3
    have hrest := (hr.type ht).trans (hr.valueAfter .default hv)
    rw [Member.data, List.tail_cons]
    exact ⟨.of_accept? ha hrest, rfl⟩
  · obtain ⟨m1, k, ⟨returns, u2⟩, ht, h2, rfl⟩ := (yields_bind _ _ _ _).1 h1
    obtain ⟨m2, k, u3, hw, h3, rfl⟩ := (yields_bind _ _ _ _).1 h2
    obtain ⟨m3, k, ⟨ps, u4⟩, hp, h4, rfl⟩ := (yields_bind _ _ _ _).1 h3
    obtain ⟨m4, k, ⟨body, u5⟩, hb, h5, rfl⟩ := (yields_bind _ _ _ _).1 h4
    obtain ⟨rfl, rfl, rfl⟩ := (yields_pure_pair _ _ _ _ _).1 h5
    have hreturns := hr.typeAfter .return' ht
    have hparameters := (within_keeps .round hr.parameters hp).1
    have hbody := (hr.block hb).1
    rw [Member.data, List.tail_cons, listData_eq_flatMap]
    exact ⟨hreturns.trans ((took_of_word hw).trans (hparameters.trans hbody)), rfl⟩

theorem memberListData_eq_flatMap (ms : List Member) :
    Member.listData ms = ms.flatMap Member.data := by
  induction ms with
  | nil => rw [Member.listData, List.flatMap_nil]
  | cons m ms ih => rw [Member.listData, ih, List.flatMap_cons]

theorem Keeps.members (hr : r.Keeps) : r.members.Keeps (List.flatMap Member.data) :=
  fun h => lines_keeps hr.member (Nat.le_refl _) h

theorem Keeps.model (hr : r.Keeps) : r.model.KeepsItem Statement.data := by
  intro u v n s h
  obtain ⟨m, k, u1, hw, h1, rfl⟩ := (yields_bind _ _ _ _).1 h
  obtain ⟨m1, k, ⟨name, u2⟩, hname, h2, rfl⟩ := (yields_bind _ _ _ _).1 h1
  obtain ⟨m2, k, ⟨members, u3⟩, hm, h3, rfl⟩ := (yields_bind _ _ _ _).1 h2
  obtain ⟨rfl, rfl, rfl⟩ := (yields_pure_pair _ _ _ _ _).1 h3
  have hmembers := (within_keeps .curly hr.members hm).1
  refine took_after_word hw ?_
  rw [Statement.data, memberListData_eq_flatMap]
  exact (took_of_identifier hname).trans hmembers.of_skipNewlines

/-! ## Levels -/

theorem Keeps.readStatement (hr : r.Keeps) : r.readStatement.KeepsItem Statement.data := by
  intro u v n s h
  unfold Inner.readStatement at h
  split at h
  · exact hr.model h
  · exact hr.declaration h
  · exact hr.change h
  · exact hr.conditional h
  · exact hr.loop h
  · exact hr.result h
  · obtain ⟨m, k, ⟨value, u1⟩, hv, h1, rfl⟩ := (yields_bind _ _ _ _).1 h
    obtain ⟨rfl, rfl, rfl⟩ := (yields_pure_pair _ _ _ _ _).1 h1
    rw [Statement.data]
    exact hr.value hv

/-- The readers at every level account for the tokens that they take. -/
theorem keeps_atDepth (file : String) (depth : Nat) : (Inner.atDepth file depth).Keeps := by
  induction depth with
  | zero =>
    exact ⟨fun h => absurd h (Logged.not_yields_fail _ _ _),
      fun h => absurd h (Logged.not_yields_fail _ _ _),
      fun h => absurd h (Logged.not_yields_fail _ _ _)⟩
  | succ depth ih =>
    refine ⟨fun h => ?_, ih.readType, ih.readStatement⟩
    rw [atDepth_expression] at h
    exact Expr.accounted_of_yields h

end Inner

/-- Reading a file is reading its statements. -/
theorem yields_parseWithin_iff (depth : Nat) (file : String) (u : Unread) (n : Nat)
    (p : List Statement × Nat) :
    (parseWithin depth file u).Yields n p ↔
      ((Inner.atDepth file depth).statements u).Yields n p := by
  have hnote : (Logged.note (.parsed file p.1.length) : Reading Unit).Yields 0 () := ⟨rfl, rfl⟩
  constructor
  · intro h
    obtain ⟨m, k, q, hq, h1, rfl⟩ := (yields_bind _ _ _ _).1 h
    obtain ⟨i, j, _, ⟨-, rfl⟩, h2, rfl⟩ := (yields_bind _ _ _ _).1 h1
    obtain ⟨rfl, rfl⟩ := (yields_pure _ _ _).1 h2
    exact hq
  · intro h
    exact (yields_bind _ _ _ _).2
      ⟨n, 0, p, h, hnote.bind_zero ((yields_pure _ _ _).2 ⟨rfl, rfl⟩), rfl⟩

/-- All tokens of a file are accounted for by its statements. -/
theorem accounted_of_parse {depth line last n : Nat} {file : String} {ts : List Token}
    {body : List Statement} (h : (parseWithin depth file ⟨ts, line⟩).Yields n (body, last)) :
    Accounted n ts (Statement.listData body) := by
  rw [Inner.listData_eq_flatMap]
  exact (Inner.keeps_atDepth file depth).statements ((yields_parseWithin_iff _ _ _ _ _).1 h)

end ModelScript
