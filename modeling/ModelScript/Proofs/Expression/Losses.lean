import Mathlib.Algebra.Order.BigOperators.Group.List
import Mathlib.Algebra.Order.Ring.Nat
import ModelScript.Proofs.Expression.Dropping
import ModelScript.Proofs.Expression.Warnings

/-!
# What is missing from an expression

An expression that is read holds all of its tokens except the elements that were dropped:

    (Expr.read file depth line ts).Yields n (e, reached) →
      ∃ drops us, Kept n ts drops us e.size (Derives · e)      (keeps_of_yields)

Here `us` is what is left of the tokens without `drops`, so the drops, and nothing else, are missing
from `e`.  Every warning is owed to one of them, unless it came from inside one that holds more than
line breaks or from inside a string literal.  So the tokens derive `e`, line breaks apart, exactly if
each warning is owed to a list of line breaks alone (`not_derives_of_warned`).
-/

namespace ModelScript

open Token (Blank unbroken enclose blankLists)
open Scope (Emptied)

/-! ## Sizes -/

mutual

/-- The number of tokens that write an expression, line breaks apart. -/
def Expr.size : Expr → Nat
  | .atom _ _ | .templated _ => 1
  | .list elements => Expr.listSize elements + 2
  | .access _ index => index.size + 3
  | .call _ arguments => Expr.listSize arguments + 3
  | .prefixed _ operand => operand.size + 1
  | .grouped inner => inner.size + 2
  | .operation left _ right => left.size + (right.size + 1)

/-- The same for expressions with commas between them. -/
def Expr.listSize : List Expr → Nat
  | [] => 0
  | [e] => e.size
  | e :: e' :: es => e.size + (Expr.listSize (e' :: es) + 1)

end

theorem Expr.size_of_readString {file : String} {read : ExprReader} {line n : Nat} {raw : String}
    {e : Expr} (h : (Expr.readString file read line raw).Yields n e) : e.size = 1 := by
  unfold Expr.readString at h
  split at h
  · obtain ⟨-, rfl⟩ := (Logged.yields_pure _ _ _).1 h
    rfl
  · obtain ⟨es, -, rfl⟩ := (Logged.yields_map _ _ _ _).1 h
    rfl

mutual

theorem Derives.length_eq {ts : List Token} {e : Expr} : Derives ts e → ts.length = e.size
  | .atom _ _ => rfl
  | .string ⟨_, _, _, h⟩ => (Expr.size_of_readString h).symm
  | .grouped h => by simp [enclose, Expr.size, h.length_eq]
  | .list h => by simp [enclose, Expr.size, h.length_eq]
  | .call _ h => by simp [enclose, Expr.size, h.length_eq]
  | .access _ h => by simp [enclose, Expr.size, h.length_eq]
  | .prefixed _ h => by simp [Expr.size, h.length_eq]
  | .operation _ _ h h' => by simp [Expr.size, h.length_eq, h'.length_eq]

theorem DerivesList.length_eq {ts : List Token} {es : List Expr} :
    DerivesList ts es → ts.length = Expr.listSize es
  | .empty => rfl
  | .last h => h.length_eq
  | .cons h h' => by simp [Expr.listSize, h.length_eq, h'.length_eq]

end

/-! ## Emptied scopes without their line breaks -/

namespace Scope.Emptied

variable {drops : List (List Token)} {ts us : List Token}

/-- As many tokens are missing as the drops hold. -/
theorem length_unbroken (h : Emptied drops ts us) : (unbroken ts).length
    = (unbroken us).length + (drops.map fun d => (unbroken d).length).sum := by
  induction h with
  | none => rfl
  | @scope drops b before inner after us hb hc h ih =>
    have hscope (us : List Token) : (unbroken (enclose b us)).length = (unbroken us).length + 2 := by
      rw [Token.unbroken_enclose]
      simp [enclose]
    have hnil : (unbroken []).length = 0 := rfl
    simp only [Token.unbroken_append, List.length_append, hscope, List.map_cons, List.sum_cons]
      at ih ⊢
    omega

/-- Line breaks alone are not missed. -/
theorem unbroken_eq (h : Emptied drops ts us) (hd : ∀ d ∈ drops, Blank d) :
    unbroken us = unbroken ts := by
  induction h with
  | none => rfl
  | @scope drops b before inner after us hb hc h ih =>
    obtain ⟨hinner, hdrops⟩ := List.forall_mem_cons.1 hd
    rw [ih hdrops]
    simp only [Token.unbroken_append, Token.unbroken_enclose, hinner.unbroken_eq,
      Token.Blank.nil.unbroken_eq]

end Scope.Emptied

/-! ## What is kept -/

/-- The tokens without the drops have the size of what is read off them, and derive it if every
warning is owed to a drop.  A further warning was about the inside of a drop that is not blank, or
about the inside of a string literal, which is then not read without it. -/
structure Kept (n : Nat) (ts : List Token) (drops : List (List Token)) (us : List Token)
    (size : Nat) (derives : List Token → Prop) : Prop extends Dropping n ts drops us where
  length_eq : (unbroken us).length = size
  derived : drops.length = n → derives (unbroken us)
  inside : drops.length < n →
    (∃ d ∈ drops, ¬ Blank d) ∨ ∃ raw, .string raw ∈ us ∧ ¬ ∃ e, ReadsString raw e

/-- The tokens are kept apart from some drops. -/
def Keeps (n : Nat) (ts : List Token) (size : Nat) (derives : List Token → Prop) : Prop :=
  ∃ drops us, Kept n ts drops us size derives

namespace Keeps

variable {m n k k' : Nat} {ts ts' : List Token} {P P' Q : List Token → Prop}

theorem imp (h : Keeps n ts k P) (hq : ∀ us, P us → Q us) : Keeps n ts k Q := by
  obtain ⟨drops, us, h⟩ := h
  exact ⟨drops, us, h.toDropping, h.length_eq, fun hn => hq _ (h.derived hn), h.inside⟩

/-- A token that is no line break. -/
theorem token {t : Token} (ht : t ≠ .newline) (hp : P [t]) : Keeps 0 [t] 1 P := by
  have hu : unbroken [t] = [t] := Token.unbroken_cons_of_ne ht []
  refine ⟨[], [t], .refl 0 [t], ?_, ?_, ?_⟩
  · rw [hu]
    rfl
  · intro _
    rwa [hu]
  · intro h
    simp at h

theorem between (before after : List Token) (h : Keeps n ts k P)
    (hq : ∀ us, P us → Q (unbroken before ++ us ++ unbroken after)) :
    Keeps n (before ++ ts ++ after) ((unbroken before).length + k + (unbroken after).length) Q := by
  obtain ⟨drops, us, h⟩ := h
  have hu : unbroken (before ++ us ++ after) = unbroken before ++ unbroken us ++ unbroken after := by
    rw [Token.unbroken_append, Token.unbroken_append]
  refine ⟨drops, before ++ us ++ after, h.toDropping.between before after, ?_, ?_, ?_⟩
  · rw [hu, List.length_append, List.length_append, h.length_eq]
  · intro hn
    rw [hu]
    exact hq _ (h.derived hn)
  · intro hn
    rcases h.inside hn with hblank | ⟨raw, hraw, hread⟩
    · exact Or.inl hblank
    · exact Or.inr ⟨raw, by simp [hraw], hread⟩

theorem blanks {as bs : List Token} (ha : Blank as) (hb : Blank bs) (h : Keeps n ts k P) :
    Keeps n (as ++ ts ++ bs) k P := by
  have := h.between (Q := P) as bs fun us hp => by
    rwa [ha.unbroken_eq, hb.unbroken_eq, List.nil_append, List.append_nil]
  rwa [ha.unbroken_eq, hb.unbroken_eq, List.length_nil, Nat.zero_add, Nat.add_zero] at this

theorem scope (b : Bracket) (h : Keeps n ts k P) :
    Keeps n (enclose b ts) (k + 2) fun us => ∃ vs, us = enclose b vs ∧ P vs := by
  have := h.between (Q := fun us => ∃ vs, us = enclose b vs ∧ P vs) [.opening b] [.closing b]
    fun vs hp => ⟨vs, rfl, hp⟩
  have hsize : (unbroken [Token.opening b]).length + k + (unbroken [Token.closing b]).length
      = k + 2 := by
    show 1 + k + 1 = k + 2
    omega
  rwa [hsize] at this

theorem cons {t : Token} {breaks : List Token} (ht : t ≠ .newline) (hb : Blank breaks)
    (h : Keeps n ts k P) :
    Keeps n (t :: breaks ++ ts) (k + 1) fun us => ∃ vs, us = t :: vs ∧ P vs := by
  have hu : unbroken (t :: breaks) = [t] := by
    rw [Token.unbroken_cons_of_ne ht, hb.unbroken_eq]
  have := h.between (Q := fun us => ∃ vs, us = t :: vs ∧ P vs) (t :: breaks) [] fun vs hp => by
    rw [hu, Token.Blank.nil.unbroken_eq, List.append_nil]
    exact ⟨vs, rfl, hp⟩
  rwa [hu, Token.Blank.nil.unbroken_eq, List.append_nil, List.length_singleton, List.length_nil,
    Nat.add_zero, Nat.add_comm 1 k] at this

theorem append (h : Keeps m ts k P) (h' : Keeps n ts' k' P')
    (hq : ∀ us us', P us → P' us' → Q (us ++ us')) : Keeps (m + n) (ts ++ ts') (k + k') Q := by
  obtain ⟨drops, us, h⟩ := h
  obtain ⟨drops', us', h'⟩ := h'
  have hle := h.length_le
  have hle' := h'.length_le
  have hlen : (drops ++ drops').length = drops.length + drops'.length := List.length_append
  refine ⟨drops ++ drops', us ++ us', h.toDropping.append h'.toDropping, ?_, ?_, ?_⟩
  · rw [Token.unbroken_append, List.length_append, h.length_eq, h'.length_eq]
  · intro hn
    rw [Token.unbroken_append]
    exact hq _ _ (h.derived (by omega)) (h'.derived (by omega))
  · intro hn
    -- one of the two readings has warned of more than its own drops
    rcases Nat.lt_or_ge drops.length m with hlt | hge
    · rcases h.inside hlt with ⟨d, hd, hblank⟩ | ⟨raw, hraw, hread⟩
      · exact Or.inl ⟨d, by simp [hd], hblank⟩
      · exact Or.inr ⟨raw, by simp [hraw], hread⟩
    · rcases h'.inside (by omega) with ⟨d, hd, hblank⟩ | ⟨raw, hraw, hread⟩
      · exact Or.inl ⟨d, by simp [hd], hblank⟩
      · exact Or.inr ⟨raw, by simp [hraw], hread⟩

end Keeps

namespace Expr

/-! ## Readings -/

/-- A string literal that is read with a warning is not read without one. -/
theorem keeps_of_readString {file : String} {depth line n : Nat} {raw : String} {e : Expr}
    (h : (readString file (Expr.read file depth) line raw).Yields n e) :
    Keeps n [.string raw] e.size (Derives · e) := by
  refine ⟨[], [.string raw], .refl n _, (size_of_readString h).symm, ?_, ?_⟩
  · intro hn
    subst hn
    exact .string ⟨file, depth, line, h⟩
  · intro hn
    refine Or.inr ⟨raw, by simp, ?_⟩
    rintro ⟨e', h'⟩
    have hzero := (readString_warns h' file depth line).eq_of_yields h
    subst hzero
    simp at hn

/-- Line breaks that are dropped are warned of once. -/
theorem Dropped.eq_zero_of_blank {n : Nat} {ts : List Token} (h : Dropped n ts) (hb : Blank ts) :
    n = 0 := by
  obtain ⟨file, depth, -, -, line, f, ho, rfl⟩ := h
  cases depth with
  | zero => cases ho
  | succ depth =>
    rw [read_of_blank file depth line hb]
    rfl

section

variable {file : String} {depth : Nat}
  (hr : ∀ {n ts e}, (Expr.read file depth).Gives n ts e → Keeps n ts e.size (Derives · e))
include hr

theorem Elements.keeps {n : Nat} {ts : List Token} {es : List Expr}
    (h : Elements (Expr.read file depth) n ts es) :
    Keeps n ts (listSize es) (DerivesList · es) := by
  induction h with
  | last h => exact (hr h).imp fun _ => .last
  | @cons m n ts rest e es h h' ih =>
    obtain ⟨e', es, rfl⟩ := List.exists_cons_of_ne_nil h'.ne_nil
    refine (hr h).append (ih.cons (t := .mark .comma) (by simp) Blank.nil) ?_
    rintro us _ hd ⟨vs, rfl, hds⟩
    exact .cons hd hds

/-- The brackets of a list are kept, and its elements if there are any. -/
theorem Listed.keeps {b : Bracket} (hb : b ≠ .curly) {n : Nat} {ts : List Token} {es : List Expr}
    (hc : Scope.Closes b ts) (h : Listed (Expr.read file depth) n ts es) :
    Keeps n (enclose b ts) (listSize es + 2)
      fun us => ∃ vs, us = enclose b vs ∧ DerivesList vs es := by
  have hempty : unbroken (enclose b []) = enclose b [] := Token.unbroken_enclose b []
  cases h with
  | empty =>
    refine ⟨[], enclose b [], .refl 0 _, congrArg List.length hempty, ?_, ?_⟩
    · intro _
      exact ⟨[], hempty, .empty⟩
    · intro hn
      simp at hn
  | @dropped n _ h =>
    have hd : Dropped n ts := ⟨file, depth, h⟩
    refine ⟨[ts], enclose b [], .drop hb hc hd, congrArg List.length hempty, ?_, ?_⟩
    · intro _
      exact ⟨[], hempty, .empty⟩
    · intro hn
      refine Or.inl ⟨ts, by simp, ?_⟩
      intro hblank
      have hzero := hd.eq_zero_of_blank hblank
      subst hzero
      simp at hn
  | elements h => exact (h.keeps hr).scope b

theorem Alone.keeps {n : Nat} {ts : List Token} {e : Expr}
    (h : Alone file (Expr.read file depth) n ts e) : Keeps n ts e.size (Derives · e) := by
  cases h with
  | atom h hk => exact .token (Token.ne_newline_of_atom? h) (.atom h hk)
  | string h => exact keeps_of_readString h
  | grouped h =>
    refine ((hr h).scope .round).imp ?_
    rintro _ ⟨vs, rfl, hd⟩
    exact .grouped hd
  | list hc h =>
    refine (h.keeps hr (by simp) hc).imp ?_
    rintro _ ⟨vs, rfl, hd⟩
    exact .list hd
  | call name hb hc h =>
    refine ((h.keeps hr (by simp) hc).cons (by simp) hb).imp ?_
    rintro _ ⟨_, rfl, vs, rfl, hd⟩
    exact .call name hd
  | access name hb ha hbs h =>
    refine ((((hr h).blanks ha hbs).scope .square).cons (by simp) hb).imp ?_
    rintro _ ⟨_, rfl, vs, rfl, hd⟩
    exact .access name hd

theorem Step.keeps {n : Nat} {ts : List Token} {e : Expr}
    (h : Step file (Expr.read file depth) n ts e) : Keeps n ts e.size (Derives · e) := by
  cases h with
  | alone h => exact h.keeps hr
  | prefixed ht h =>
    have hp := (Token.prefixOf?_eq_some_iff _ _).1 ht
    refine ((hr h).cons (by rintro rfl; cases hp) Blank.nil).imp ?_
    rintro _ ⟨vs, rfl, hd⟩
    exact .prefixed hp hd
  | @operation m n head breaks right op el er hw hb h h' =>
    have hleft := (hr h).blanks Blank.nil hb
    refine hleft.append ((hr h').cons (t := .operator op) (by simp) Blank.nil) ?_
    rintro us _ hd ⟨vs, rfl, hd'⟩
    exact .operation op (isOperand_of_read hw h) hd hd'

end

/-- An expression that is read keeps all of its tokens apart from the drops. -/
theorem keeps_of_yields {file : String} {depth line n reached : Nat} {ts : List Token} {e : Expr}
    (h : (Expr.read file depth line ts).Yields n (e, reached)) :
    Keeps n ts e.size (Derives · e) := by
  induction depth generalizing line n reached ts e with
  | zero => exact absurd h (Logged.not_yields_fail _ _ _)
  | succ depth ih =>
    obtain ⟨as, body, bs, rfl, ha, hb, hstep⟩ := exists_step_of_readStep h
    refine (hstep.keeps ?_).blanks ha hb
    rintro n ts e ⟨line, reached, h⟩
    exact ih h

/-! ## What is missing -/

/-- Tokens that derive an expression hold no string literal that is read with a warning only. -/
theorem exists_readsString_of_derives {ts : List Token} {e : Expr} (h : Derives ts e) {raw : String}
    (hraw : .string raw ∈ ts) : ∃ e, ReadsString raw e := by
  obtain ⟨d, hd⟩ := reads_of_derives h
  obtain ⟨reached, hy⟩ := hd default d (Nat.le_refl d) 0
  exact (accounted_of_yields hy).exists_readsString rfl hraw

/-- What is kept tells whether the tokens derive the expression. -/
theorem derives_iff_of_kept {n : Nat} {ts us : List Token} {drops : List (List Token)} {e : Expr}
    (h : Kept n ts drops us e.size (Derives · e)) :
    Derives (unbroken ts) e ↔ drops.length = n ∧ ∀ d ∈ drops, Blank d := by
  constructor
  · intro hd
    have hblank : ∀ d ∈ drops, Blank d := by
      -- the tokens have the size of `e` with the drops and without them
      have hsum := h.emptied.length_unbroken
      rw [hd.length_eq, h.length_eq, Nat.left_eq_add, List.sum_eq_zero_iff] at hsum
      intro d hmem
      have hzero := hsum _ (List.mem_map_of_mem hmem)
      exact (Token.unbroken_eq_nil_iff d).1 (List.eq_nil_of_length_eq_zero hzero)
    refine ⟨Nat.le_antisymm h.length_le (Nat.le_of_not_lt ?_), hblank⟩
    intro hlt
    rcases h.inside hlt with ⟨d, hmem, hnot⟩ | ⟨raw, hraw, hnot⟩
    · exact hnot (hblank d hmem)
    · exact hnot (exists_readsString_of_derives hd
        (List.mem_filter.2 ⟨h.emptied.subset hraw, rfl⟩))
  · rintro ⟨hn, hblank⟩
    rw [← h.emptied.unbroken_eq hblank]
    exact h.derived hn

/-- An expression that is read keeps all of its tokens apart from some drops.  Without their line
breaks the tokens derive it exactly if each warning is owed to a drop of line breaks alone, and so
never if there is any other number of warnings than there are lists of line breaks. -/
theorem not_derives_of_warned {file : String} {depth line n reached : Nat} {ts : List Token}
    {e : Expr} (h : (Expr.read file depth line ts).Yields n (e, reached)) :
    ∃ drops us, Kept n ts drops us e.size (Derives · e) ∧
      (Derives (unbroken ts) e ↔ drops.length = n ∧ ∀ d ∈ drops, Blank d) ∧
      (n ≠ blankLists ts → ¬ Derives (unbroken ts) e) := by
  obtain ⟨drops, us, hk⟩ := keeps_of_yields h
  refine ⟨drops, us, hk, derives_iff_of_kept hk, ?_⟩
  intro hn hd
  exact hn ((warns_of_derives hd rfl file depth line).eq_of_yields h)

/-- In `f(] + g(⏎))` there is one warning and one list of line breaks, and yet more is dropped. -/
theorem not_derives_of_warned_beside :
    let ts : List Token := [.ident "f", .opening .round, .closing .square, .operator "+",
      .ident "g", .opening .round, .newline, .closing .round, .closing .round]
    let e : Expr := .call "f" []
    (Expr.read "<string>" 3 1 ts).Yields 1 (e, 1) ∧ 1 = blankLists ts ∧ ¬ Derives (unbroken ts) e ∧
      ∃ drops us, Kept 1 ts drops us e.size (Derives · e) ∧ ∃ d ∈ drops, ¬ Blank d := by
  intro ts e
  have h : (Expr.read "<string>" 3 1 ts).Yields 1 (e, 1) := ⟨by cbv, by cbv⟩
  obtain ⟨drops, us, hk, hiff, -⟩ := not_derives_of_warned h
  have hsize : (unbroken ts).length ≠ e.size := by decide
  have hdrop : ∃ d ∈ drops, ¬ Blank d := by
    by_contra hall
    have hblank : ∀ d ∈ drops, Blank d := by
      intro d hd
      by_contra hnot
      exact hall ⟨d, hd, hnot⟩
    exact hsize (hk.emptied.unbroken_eq hblank ▸ hk.length_eq)
  have hnot : ¬ Derives (unbroken ts) e := by
    intro hd
    obtain ⟨d, hmem, hblank⟩ := hdrop
    exact hblank ((hiff.1 hd).2 d hmem)
  exact ⟨h, by decide, hnot, drops, us, hk, hdrop⟩

/-- The call `f(⏎)` is read with a warning, though nothing of it is missing. -/
theorem derives_of_warned_call :
    let ts : List Token := [.ident "f", .opening .round, .newline, .closing .round]
    tokenize "<string>" 1 "f(\n)".toList = .ok ts ∧
      (∀ depth, (Expr.read "<string>" (depth + 2) 1 ts).Yields 1 (.call "f" [], 1)) ∧
      Derives (unbroken ts) (.call "f" []) := by
  intro ts
  have hd : Derives (unbroken ts) (.call "f" []) := .call "f" .empty
  refine ⟨by rfl, fun depth => ?_, hd⟩
  have ho : (Expr.read "<string>" (depth + 2) 1 ts).outcome = .ok (.call "f" [], 1) := by rfl
  exact ⟨ho, (warns_of_derives hd rfl "<string>" (depth + 2) 1).eq_of_yields ⟨ho, rfl⟩⟩

end Expr

end ModelScript
