import ModelScript.Proofs.Expression.Acceptance
import ModelScript.Proofs.Scope.Unbroken
import ModelScript.Proofs.Statement.Written
import ModelScript.Statement.Parser

/-!
# Values cut out of a file

A value goes as far as `Unread.valueLength` says.  Here that length is told by the tokens of the
value and by what stands behind it: the derivation of an expression is cut out whole if nothing
behind it can continue it (`valueLength_of_derives`).
-/

namespace ModelScript

open Token (enclose)
open Scope (Balanced)

/-! ## What stands behind a statement -/

/-- A token that a statement can begin with, behind another one. -/
def Token.Starts (t : Token) : Prop :=
  t ≠ .newline ∧ (∀ op, t ≠ .operator op) ∧ t ≠ .keyword .else'

/-- What can stand behind a statement: nothing, or a line break and then another statement. -/
inductive Ends : List Token → Prop
  | nil : Ends []
  | newline {rest : List Token} (h : ∀ t, Token.significant? rest = some t → t.Starts) :
    Ends (.newline :: rest)

/-- What can stand behind a value: the end of a statement, or a body. -/
def Stops (rest : List Token) : Prop := Ends rest ∨ ∃ body, rest = .opening .curly :: body

theorem Ends.stops {rest : List Token} (h : Ends rest) : Stops rest := Or.inl h

theorem stops_curly (body : List Token) : Stops (.opening .curly :: body) := Or.inr ⟨body, rfl⟩

/-- A keyword behind a statement is one that begins the next. -/
theorem Stops.head?_ne_keyword {rest : List Token} (h : Stops rest) (k : Keyword) :
    rest.head? ≠ some (.keyword k) := by
  rcases h with (⟨⟩ | ⟨⟩) | ⟨body, rfl⟩ <;> simp

/-! ## The ends of a derivation -/

/-- The last token of a derivation is none that goes on in the next line. -/
theorem Derives.exists_getLast? {ts : List Token} {e : Expr} (h : Derives ts e) :
    ∃ t, ts.getLast? = some t ∧ (∀ op, t ≠ .operator op) ∧ ∀ op, t ≠ .prefixOperator op := by
  cases h with
  | atom h _ =>
    refine ⟨_, rfl, ?_, ?_⟩ <;> rintro op rfl <;> cases h
  | string _ => exact ⟨_, rfl, by simp, by simp⟩
  | grouped _ => exact ⟨_, Token.getLast?_append_enclose [] .round _, by simp, by simp⟩
  | list _ => exact ⟨_, Token.getLast?_append_enclose [] .square _, by simp, by simp⟩
  | call name _ =>
    exact ⟨_, Token.getLast?_append_enclose [.ident name] .round _, by simp, by simp⟩
  | access name _ =>
    exact ⟨_, Token.getLast?_append_enclose [.ident name] .square _, by simp, by simp⟩
  | prefixed _ h =>
    obtain ⟨t, ht, h1, h2⟩ := h.exists_getLast?
    exact ⟨t, by rw [List.getLast?_cons, ht]; rfl, h1, h2⟩
  | operation op _ _ h' =>
    obtain ⟨t, ht, h1, h2⟩ := h'.exists_getLast?
    refine ⟨t, ?_, h1, h2⟩
    rw [List.getLast?_append, List.getLast?_cons, ht]
    rfl

/-- The first token of a derivation is an operator only in front of a sign's operand. -/
theorem Derives.exists_head? {ts : List Token} {e : Expr} :
    Derives ts e → ∃ t, ts.head? = some t ∧ t ≠ .newline ∧ (∀ k, t ≠ .keyword k) ∧
      ((∃ op, t = .operator op) → ∃ op e', e = .prefixed op e' ∧ (op = "-" ∨ op = "minus"))
  | .atom h _ => by
    refine ⟨_, rfl, Token.ne_newline_of_atom? h, ?_, ?_⟩
    · rintro k rfl
      cases h
    · rintro ⟨op, rfl⟩
      cases h
  | .string _ => ⟨_, rfl, by simp, by simp, by simp⟩
  | .grouped _ => ⟨.opening .round, by simp [enclose], by simp, by simp, by simp⟩
  | .list _ => ⟨.opening .square, by simp [enclose], by simp, by simp, by simp⟩
  | .call _ _ => ⟨_, rfl, by simp, by simp, by simp⟩
  | .access _ _ => ⟨_, rfl, by simp, by simp, by simp⟩
  | .prefixed (.own op) _ => ⟨_, rfl, by simp, by simp, by simp⟩
  | .prefixed (.sign hs) _ => ⟨_, rfl, by simp, by simp, fun _ => ⟨_, _, rfl, hs⟩⟩
  | .operation op ho h h' => by
    obtain ⟨t, ht, h1, h2, h3⟩ := h.exists_head?
    refine ⟨t, by rw [List.head?_append, ht]; rfl, h1, h2, fun hop => ?_⟩
    obtain ⟨_, _, rfl, -⟩ := h3 hop
    cases ho

/-- Without a sign, the first token of a derivation can begin a statement. -/
theorem Derives.exists_starts {ts : List Token} {e : Expr} (h : Derives ts e)
    (hs : ¬ e.IsSigned) : ∃ t rest, ts = t :: rest ∧ t.Starts := by
  obtain ⟨t, ht, hn, hk, ho⟩ := h.exists_head?
  obtain ⟨rest, rfl⟩ := List.head?_eq_some_iff.1 ht
  refine ⟨t, rest, rfl, hn, ?_, hk _⟩
  intro op hop
  obtain ⟨_, _, rfl, hsign⟩ := ho ⟨op, hop⟩
  exact hs hsign

/-! ## The length of a value -/

/-- The depth of brackets behind a token of a value.  At depth zero no curly brace belongs to a
value and no bracket that closes one. -/
def Token.valueDepth? (depth : Nat) : Token → Option Nat
  | .mark (.opening .curly) | .mark (.closing .curly) => if depth = 0 then none else some depth
  | .mark (.opening _) => some (depth + 1)
  | .mark (.closing _) => if depth = 0 then none else some (depth - 1)
  | _ => some depth

namespace Token

theorem valueDepth?_opening (depth : Nat) {b : Bracket} (hb : b ≠ .curly) :
    (opening b).valueDepth? depth = some (depth + 1) := by
  cases b with
  | curly => exact absurd rfl hb
  | _ => rfl

theorem valueDepth?_closing (depth : Nat) {b : Bracket} (hb : b ≠ .curly) :
    (closing b).valueDepth? (depth + 1) = some depth := by
  cases b with
  | curly => exact absurd rfl hb
  | _ => rfl

theorem valueDepth?_other (depth : Nat) {t : Token} (ho : ∀ b, t ≠ .opening b)
    (hc : ∀ b, t ≠ .closing b) : t.valueDepth? depth = some depth := by
  cases t with
  | mark m =>
    cases m with
    | opening b => exact absurd rfl (ho b)
    | closing b => exact absurd rfl (hc b)
    | _ => rfl
  | _ => rfl

end Token

namespace Unread

theorem valueLength_cons {t : Token} (ht : t ≠ .newline) (depth : Nat) (previous : Option Token)
    (rest : List Token) :
    valueLength depth previous (t :: rest)
      = match t.valueDepth? depth with
        | none => 0
        | some d => valueLength d (some t) rest + 1 := by
  cases t with
  | newline => exact absurd rfl ht
  | mark m =>
    cases m with
    | opening b =>
      cases b with
      | curly => by_cases hd : depth = 0 <;> simp [valueLength, Token.valueDepth?, hd]
      | _ => rfl
    | closing b => by_cases hd : depth = 0 <;> cases b <;> simp [valueLength, Token.valueDepth?, hd]
    | _ => rfl
  | _ => rfl

theorem valueLength_le (depth : Nat) (previous : Option Token) (ts : List Token) :
    valueLength depth previous ts ≤ ts.length := by
  fun_induction valueLength depth previous ts with
  | case1 => exact Nat.le_refl _
  | _ =>
    rw [List.length_cons]
    omega

theorem continues_blank_append (previous : Option Token) {as : List Token} (ha : Token.Blank as)
    (rest : List Token) : continues previous (as ++ rest) = continues previous rest := by
  unfold continues
  rw [ha.significant?_append]

/-- Line breaks that do not end a value belong to it. -/
theorem valueLength_blank_append {depth : Nat} {previous : Option Token} {as rest : List Token}
    (ha : Token.Blank as) (h : (depth = 0 && !continues previous rest) = false) :
    valueLength depth previous (as ++ rest) = as.length + valueLength depth previous rest := by
  induction as with
  | nil => rw [List.nil_append, List.length_nil, Nat.zero_add]
  | cons a as ih =>
    obtain ⟨rfl, has⟩ := (Token.blank_cons _ _).1 ha
    rw [List.cons_append, valueLength, continues_blank_append previous has, h, ih has,
      List.length_cons]
    simp
    omega

/-- The cut passes over balanced tokens, unless a line break among them ends the value. -/
theorem valueLength_append {commas : Bool} {ts : List Token} (h : Balanced commas ts)
    (depth : Nat) (previous : Option Token) (rest : List Token)
    (hgo : .newline ∈ ts → ts.length ≤ valueLength depth previous (ts ++ rest)) :
    valueLength depth previous (ts ++ rest)
      = ts.length + valueLength depth ((Token.unbroken ts).getLast?.or previous) rest := by
  induction h generalizing depth previous rest with
  | nil => simp [Token.unbroken]
  | @token commas t ho hc _ =>
    rw [List.singleton_append, List.length_singleton, Nat.add_comm]
    by_cases ht : t = .newline
    · subst ht
      have hpos := hgo (by simp)
      rw [List.singleton_append, valueLength] at hpos
      rw [valueLength]
      split
      · next hstop => simp [hstop] at hpos
      · rfl
    · rw [valueLength_cons ht, Token.valueDepth?_other depth ho hc, Token.unbroken_cons_of_ne ht]
      rfl
  | @append commas ts us _ _ ih ih' =>
    rw [List.append_assoc, List.length_append] at hgo
    have hfirst := ih depth previous (us ++ rest) fun hm =>
      Nat.le_trans (Nat.le_add_right _ _) (hgo (by simp [hm]))
    have hsecond := ih' depth ((Token.unbroken ts).getLast?.or previous) rest fun hm => by
      have := hgo (by simp [hm])
      omega
    rw [List.append_assoc, hfirst, hsecond, List.length_append, Token.unbroken_append,
      List.getLast?_append, Option.or_assoc]
    omega
  | @scope commas b ts hb _ ih =>
    have hin : valueLength depth previous (.opening b :: (ts ++ .closing b :: rest))
        = valueLength (depth + 1) (some (.opening b)) (ts ++ .closing b :: rest) + 1 := by
      rw [valueLength_cons (by simp), Token.valueDepth?_opening depth hb]
    have hout (p : Option Token) : valueLength (depth + 1) p (.closing b :: rest)
        = valueLength depth (some (.closing b)) rest + 1 := by
      rw [valueLength_cons (by simp), Token.valueDepth?_closing depth hb]
    have hlast : (Token.unbroken (enclose b ts)).getLast? = some (.closing b) := by
      rw [Token.unbroken_enclose, ← List.nil_append (enclose b _), Token.getLast?_append_enclose]
    rw [Token.enclose_append, hin, Token.length_enclose] at hgo
    have hinner := ih (depth + 1) (some (.opening b)) (.closing b :: rest) fun hm => by
      have := hgo (by simp [enclose, hm])
      omega
    rw [Token.enclose_append, hin, hinner, hout, Token.length_enclose, hlast, Option.some_or]
    omega

theorem continues_eq_false {previous : Option Token} {rest : List Token}
    (hp : ∀ t, previous = some t → (∀ op, t ≠ .operator op) ∧ ∀ op, t ≠ .prefixOperator op)
    (hr : ∀ t, Token.significant? rest = some t → ∀ op, t ≠ .operator op) :
    continues previous rest = false := by
  unfold continues
  rw [Bool.or_eq_false_iff]
  constructor
  · split
    · exact absurd rfl ((hp _ rfl).1 _)
    · exact absurd rfl ((hp _ rfl).2 _)
    · rfl
  · split
    · next op hs => exact absurd rfl (hr _ hs op)
    · rfl

/-- What follows as another statement does not continue a value. -/
theorem continues_append {tail : List Token}
    (h : ∀ t, Token.significant? tail = some t → ∀ op, t ≠ .operator op)
    (previous : Option Token) (ts : List Token) :
    continues previous (ts ++ tail) = continues previous ts := by
  unfold continues Token.significant?
  rw [List.find?_append]
  cases hs : ts.find? (!·.isNewline) with
  | some t => rfl
  | none =>
    congr 1
    cases htail : tail.find? (!·.isNewline) with
    | none => rfl
    | some t =>
      cases t with
      | operator op => exact absurd rfl (h _ htail op)
      | _ => rfl

/-- Tokens that do not continue a value leave it as it is, unless it goes on up to them. -/
theorem valueLength_append_or {tail : List Token}
    (h : ∀ t, Token.significant? tail = some t → ∀ op, t ≠ .operator op) (depth : Nat)
    (previous : Option Token) (ts : List Token) :
    valueLength depth previous (ts ++ tail) = valueLength depth previous ts ∨
      (valueLength depth previous ts = ts.length ∧
        ts.length ≤ valueLength depth previous (ts ++ tail)) := by
  have hsucc {a b n : Nat} (h : a = b ∨ (b = n ∧ n ≤ a)) :
      a + 1 = b + 1 ∨ (b + 1 = n + 1 ∧ n + 1 ≤ a + 1) := by omega
  induction ts generalizing depth previous with
  | nil => exact Or.inr ⟨rfl, Nat.zero_le _⟩
  | cons t ts ih =>
    rw [List.cons_append, List.length_cons]
    by_cases ht : t = .newline
    · subst ht
      rw [valueLength, valueLength, continues_append h]
      split
      · exact Or.inl rfl
      · exact hsucc (ih depth previous)
    · rw [valueLength_cons ht, valueLength_cons ht]
      cases t.valueDepth? depth with
      | none => exact Or.inl rfl
      | some d => exact hsucc (ih d (some t))

/-- The tokens of an expression are cut out whole, if no line break among them ends it. -/
theorem valueLength_of_unbroken {ts rest : List Token} {e : Expr}
    (h : Derives (Token.unbroken ts) e)
    (hgo : .newline ∈ ts → ts.length ≤ valueLength 0 none (ts ++ rest)) (hs : Stops rest) :
    valueLength 0 none (ts ++ rest) = ts.length := by
  obtain ⟨t, ht, hop, hpre⟩ := h.exists_getLast?
  rw [valueLength_append h.balanced.of_unbroken 0 none rest hgo, ht]
  rcases hs with (⟨⟩ | ⟨hr⟩) | ⟨body, rfl⟩
  · rfl
  · next rest =>
    have hc : continues (some t) rest = false := by
      refine continues_eq_false ?_ fun t ht => (hr t ht).2.1
      rintro _ ⟨⟩
      exact ⟨hop, hpre⟩
    simp [valueLength, hc]
  · rfl

/-- A value that is an expression is cut out as it is when other statements follow. -/
theorem valueLength_append_of_ends {ts tail : List Token} {e : Expr}
    (h : Derives (Token.unbroken (ts.take (valueLength 0 none ts))) e) (he : Ends tail) :
    valueLength 0 none (ts ++ tail) = valueLength 0 none ts := by
  have htail : ∀ t, Token.significant? tail = some t → ∀ op, t ≠ .operator op := by
    cases he with
    | nil =>
      intro t ht
      cases ht
    | newline hr => exact fun t ht => (hr t ht).2.1
  rcases valueLength_append_or htail 0 none ts with heq | ⟨hlen, hle⟩
  · exact heq
  · rw [hlen, List.take_length] at h
    rw [hlen]
    exact valueLength_of_unbroken h (fun _ => hle) he.stops

/-- The tokens of a derivation are cut out whole. -/
theorem valueLength_of_derives {ts rest : List Token} {e : Expr} (h : Derives ts e)
    (hs : Stops rest) : valueLength 0 none (ts ++ rest) = ts.length := by
  have hunbroken := Token.unbroken_eq_self h.ne_newline
  exact valueLength_of_unbroken (hunbroken.symm ▸ h) (fun hm => absurd rfl (h.ne_newline _ hm)) hs

end Unread

end ModelScript
