import ModelScript.Proofs.Statement.Ledger
import ModelScript.Proofs.Statement.Taking

/-!
# Statements as items

What the readers at some level take, those at every deeper level take as well, and `Eventually P`
says of a property of readers that it holds from some level on.  What stands between brackets is
`Enclosed` when its brackets close and readers that may go deep enough take all of it.  Each kind of
statement with a body is one item of a body for such readers, over any such body.
-/

namespace ModelScript

open Token (Blank enclose)
open Logged (yields_pure)

namespace Inner

/-! ## Readers that may go deep enough -/

/-- Holds of the readers at all levels from some level on, in every file. -/
def Eventually (P : Inner → Prop) : Prop :=
  ∃ d, ∀ file depth, d ≤ depth → P (Inner.atDepth file depth)

variable {P Q : Inner → Prop}

theorem Eventually.and (h : Eventually P) (h' : Eventually Q) : Eventually fun r => P r ∧ Q r := by
  obtain ⟨d, hd⟩ := h
  obtain ⟨d', hd'⟩ := h'
  exact ⟨max d d', fun file depth hle => ⟨hd file depth (by omega), hd' file depth (by omega)⟩⟩

theorem Eventually.mono (h : Eventually P) (hPQ : ∀ r, P r → Q r) : Eventually Q := by
  obtain ⟨d, hd⟩ := h
  exact ⟨d, fun file depth hle => hPQ _ (hd file depth hle)⟩

theorem Eventually.exists (h : Eventually P) : ∃ r, P r := by
  obtain ⟨d, hd⟩ := h
  exact ⟨_, hd "" d (Nat.le_refl d)⟩

theorem Eventually.of_forall (h : ∀ r, P r) : Eventually P := ⟨0, fun _ _ _ => h _⟩

/-- What the readers for the inner levels make possible holds one level further up. -/
theorem Eventually.step (h : Eventually P)
    (hPQ : ∀ file depth, P (Inner.atDepth file depth) → Q (Inner.atDepth file (depth + 1))) :
    Eventually Q := by
  obtain ⟨d, hd⟩ := h
  refine ⟨d + 1, fun file depth hle => ?_⟩
  obtain ⟨k, rfl⟩ : ∃ k, depth = k + 1 := ⟨depth - 1, by omega⟩
  exact hPQ file k (hd file k (by omega))

theorem eventually_accepts {ts : List Token} {e : Expr} (h : Derives ts e) :
    Eventually fun r => Expr.Accepts r.expression ts e := by
  obtain ⟨d, hd⟩ := Expr.reads_of_derives h
  refine ⟨d, fun file depth hle => ?_⟩
  have h := hd file depth hle
  rwa [← atDepth_expression] at h

theorem eventually_value {ts : List Token} {e : Expr} (h : Derives ts e) :
    Eventually fun r => ∀ rest, Stops rest → r.value.Takes ts e rest :=
  (eventually_accepts h).mono fun _ hr _ hs => value_takes h hr hs

theorem eventually_takesType (t : TypeRef) : Eventually fun r => r.TakesType t := by
  induction t with
  | plain name =>
    exact (Eventually.of_forall fun _ => trivial).step fun _ _ _ _ h => readType_takes_plain name h
  | of name element ih =>
    exact ih.step fun _ _ ht rest h => readType_takes_of name (ht rest h)

theorem eventually_takesTypes (type : Option TypeRef) :
    Eventually fun r => ∀ t, type = some t → r.TakesType t := by
  cases type with
  | none => exact .of_forall fun _ _ h => by cases h
  | some t =>
    refine (eventually_takesType t).mono fun r h t' ht => ?_
    cases ht
    exact h

theorem eventually_takesParameters (ps : List Parameter) :
    Eventually fun r => ∀ p ∈ ps, r.TakesType p.type := by
  induction ps with
  | nil => exact .of_forall fun _ _ h => by cases h
  | cons p ps ih =>
    refine ((eventually_takesType p.type).and ih).mono fun r h q hq => ?_
    rcases List.mem_cons.1 hq with rfl | hq
    · exact h.1
    · exact h.2 q hq

theorem eventually_default {ts : List Token} {initial : Option Expr}
    (h : WritesDefault ts initial) :
    Eventually fun r => ∀ rest, Ends rest → (r.valueAfter .default).Takes ts initial rest := by
  cases h with
  | nothing =>
    exact .of_forall fun r rest he =>
      valueAfter_takes_nothing .default (he.stops.head?_ne_keyword .default)
  | value h =>
    exact (eventually_value h).mono fun r hv rest he =>
      valueAfter_takes_value .default (hv rest he.stops)

theorem eventually_index {ts : List Token} {index : Option Expr} (h : WritesIndex ts index) :
    Eventually fun r =>
      ∀ rest, rest.head? ≠ some (.opening .square) → r.indexIfAny.Takes ts index rest := by
  cases h with
  | nothing => exact .of_forall fun r rest h => indexIfAny_takes_nothing h
  | index h => exact (eventually_accepts h).mono fun r hr rest _ => indexIfAny_takes_index h hr rest

/-! ## Between brackets -/

/-- The brackets around the tokens close behind them, also where a body is looked for, and readers
that may go deep enough take all that stands between them. -/
structure Enclosed {α : Type} (b : Bracket) (read : Inner → WholeReader α) (ts : List Token)
    (a : α) : Prop where
  closes : Scope.Closes b ts
  passes : Scope.Passes .curly ts
  takes : Eventually fun r => (read r).Takes ts a

theorem enclosed_of_items {ts : List Token} {body : List Statement}
    (h : Eventually fun r => Lines (Item r.statement) ts body) :
    Enclosed .curly Inner.statements ts body := by
  obtain ⟨r, hr⟩ := h.exists
  exact ⟨(passes_of_lines hr).closes, passes_of_lines hr, h.mono fun _ hr => statements_takes hr⟩

theorem enclosed_of_members {ts : List Token} {members : List Member}
    (h : Eventually fun r => Lines (Item r.member) ts members) :
    Enclosed .curly Inner.members ts members := by
  obtain ⟨r, hr⟩ := h.exists
  exact ⟨(passes_of_lines hr).closes, passes_of_lines hr, h.mono fun _ hr => members_takes hr⟩

theorem enclosed_of_parameters (ps : List Parameter) :
    Enclosed .round Inner.parameters (parameterTokens ps) ps :=
  ⟨(passes_parameterTokens .round ps).closes, passes_parameterTokens .curly ps,
    (eventually_takesParameters ps).mono fun _ hp => parameters_takes hp⟩

theorem Enclosed.passes_scope {α : Type} {b : Bracket} {read : Inner → WholeReader α}
    {breaks ts : List Token} {a : α} (h : Enclosed b read ts a) (hbreaks : Blank breaks) :
    Scope.Passes .curly (breaks ++ enclose b ts) :=
  ((Scope.Balanced.of_blank true hbreaks).passes .curly).append (h.passes.enclose b)

/-- A body that may begin in a later line ends a value. -/
theorem stops_scope {breaks : List Token} (hbreaks : Blank breaks) (ts rest : List Token) :
    Stops (breaks ++ enclose .curly ts ++ rest) := by
  cases breaks with
  | nil => exact stops_curly _
  | cons t breaks =>
    obtain ⟨rfl, hblank⟩ := (Token.blank_cons _ _).1 hbreaks
    have hne : Token.opening .curly ≠ .newline := by simp
    have hcurly : Token.significant? (breaks ++ enclose .curly ts ++ rest)
        = some (.opening .curly) := by
      rw [List.append_assoc, Token.enclose_append]
      exact Construct.significant?_blank_append hblank hne (ts ++ .closing .curly :: rest)
    refine (Ends.newline fun t ht => ?_).stops
    cases hcurly.symm.trans ht
    exact ⟨by simp, by simp, by simp⟩

/-! ## Statements -/

/-- A statement that is read from its tokens one level up is an item of a body there. -/
theorem item_of_readStatement {file : String} {depth : Nat} {t : Token} {ts : List Token}
    {s : Statement} (hs : t.Starts) (hp : Scope.Passes .curly (t :: ts))
    (h : ∀ rest, Ends rest → (Inner.atDepth file depth).readStatement.Takes (t :: ts) s rest) :
    Item (Inner.atDepth file (depth + 1)).statement (t :: ts) s :=
  ⟨⟨t, ts, rfl, hs⟩, hp, h⟩

theorem starts_keyword {k : Keyword} (h : k ≠ .else') : (Token.keyword k).Starts :=
  ⟨by simp, by simp, by simpa using h⟩

theorem starts_of_modifiers (m : Modifiers) (name : String) (ts : List Token) :
    ∃ t rest, modifierTokens .private' m.isPrivate ++ (modifierTokens .static m.isStatic
      ++ .ident name :: ts) = t :: rest ∧ t.Starts := by
  obtain ⟨isPrivate, isStatic⟩ := m
  cases isPrivate with
  | true => exact ⟨_, _, rfl, starts_keyword (by simp)⟩
  | false =>
    cases isStatic with
    | true => exact ⟨_, _, rfl, starts_keyword (by simp)⟩
    | false => exact ⟨_, _, rfl, by simp, by simp, by simp⟩

/-- A bare expression does not look like any other statement. -/
theorem readStatement_takes_bare {r : Inner} {ts rest : List Token} {e : Expr} (h : Derives ts e)
    (hv : r.value.Takes ts e rest) : r.readStatement.Takes ts (.bare e) rest := by
  intro line
  obtain ⟨t, ht, -, hk, -⟩ := h.exists_head?
  obtain ⟨us, rfl⟩ := List.head?_eq_some_iff.1 ht
  have hb : r.readStatement ⟨t :: us ++ rest, line⟩ = (do
      let read ← r.value ⟨t :: us ++ rest, line⟩
      return (.bare read.1, read.2)) := by
    cases t with
    | keyword k => exact absurd rfl (hk k)
    | _ => rfl
  rw [hb]
  exact (hv line).bind_zero ((yields_pure _ _ _).2 ⟨rfl, rfl⟩)

/-- Neither the first value of a property nor what follows it begins with `of`. -/
theorem head?_append_ne_of_writesDefault {ts rest : List Token} {initial : Option Expr}
    (h : WritesDefault ts initial) (he : Ends rest) :
    (ts ++ rest).head? ≠ some (.keyword .of) := by
  cases h with
  | nothing => exact he.stops.head?_ne_keyword .of
  | value h => simp

/-- What is written behind the body of a conditional is taken wherever the conditional ends. -/
structure Tail (r : Inner) (ts : List Token) (otherwise : Option (List Statement)) : Prop where
  passes : Scope.Passes .curly ts
  takes : ∀ rest, Ends rest → r.otherwise.Takes ts otherwise rest

theorem Tail.nothing (r : Inner) : Tail r [] none :=
  ⟨.nil _, fun _ he => otherwise_takes_nothing he⟩

/-- A conditional right behind `else`. -/
theorem tail_of_chain {ts : List Token} {s : Statement}
    (h : Eventually fun r => Item r.statement (.keyword .if' :: ts) s) :
    Eventually fun r => Tail r (.keyword .else' :: .keyword .if' :: ts) (some [s]) :=
  h.mono fun _ hitem =>
    ⟨.keyword .else' hitem.passes, fun rest he => otherwise_takes_chain (hitem.takes rest he)⟩

theorem tail_of_body {ts : List Token} {body : List Statement}
    (h : Enclosed .curly Inner.statements ts body) :
    Eventually fun r => Tail r (.keyword .else' :: enclose .curly ts) (some body) :=
  h.takes.mono fun _ hbody =>
    ⟨.keyword .else' (h.passes.enclose .curly), fun rest _ =>
      otherwise_takes_block (block_takes .nil h.closes hbody rest)⟩

/-! ## Statements with a body -/

section Bodies

variable {breaks tc tb te tp ts : List Token} {condition : Expr} {body : List Statement}

theorem item_of_model (name : String) {members : List Member} (hbreaks : Blank breaks)
    (hm : Enclosed .curly Inner.members ts members) :
    Eventually fun r => Item r.statement
      (.keyword .describe :: .ident name :: (breaks ++ enclose .curly ts)) (.model name members) :=
  hm.takes.step fun _ _ htakes =>
    item_of_readStatement (starts_keyword (by simp))
      (.keyword _ (.ident name (hm.passes_scope hbreaks)))
      fun rest _ => model_takes name hbreaks hm.closes htakes rest

theorem item_of_conditional {otherwise : Option (List Statement)} (hv : Derives tc condition)
    (hbreaks : Blank breaks) (hb : Enclosed .curly Inner.statements tb body)
    (ho : Eventually fun r => Tail r te otherwise) :
    Eventually fun r => Item r.statement
      (.keyword .if' :: (tc ++ (breaks ++ enclose .curly tb ++ te)))
      (.conditional condition body otherwise) := by
  refine (((eventually_value hv).and hb.takes).and ho).step fun file depth hr => ?_
  obtain ⟨⟨hvalue, hbody⟩, htail⟩ := hr
  have hpasses := (hb.passes_scope hbreaks).append htail.passes
  refine item_of_readStatement (starts_keyword (by simp))
    (.keyword _ ((hv.balanced.passes .curly).append hpasses)) fun rest he => ?_
  exact conditional_takes (hvalue _ (stops_scope hbreaks tb (te ++ rest)))
    (block_takes hbreaks hb.closes hbody _) (htail.takes rest he)

theorem item_of_loop (hv : Derives tc condition) (hbreaks : Blank breaks)
    (hb : Enclosed .curly Inner.statements tb body) :
    Eventually fun r => Item r.statement
      (.keyword .while' :: (tc ++ (breaks ++ enclose .curly tb))) (.loop condition body) := by
  refine ((eventually_value hv).and hb.takes).step fun file depth hr => ?_
  obtain ⟨hvalue, hbody⟩ := hr
  refine item_of_readStatement (starts_keyword (by simp))
    (.keyword _ ((hv.balanced.passes .curly).append (hb.passes_scope hbreaks))) fun rest _ => ?_
  exact loop_takes (hvalue _ (stops_scope hbreaks tb rest))
    (block_takes hbreaks hb.closes hbody rest)

theorem item_of_function (name : String) (returns : Option TypeRef) (m : Modifiers)
    {parameters : List Parameter} (hp : Enclosed .round Inner.parameters tp parameters)
    (hbreaks : Blank breaks) (hb : Enclosed .curly Inner.statements tb body) :
    Eventually fun r => Item r.member
      (modifierTokens .private' m.isPrivate ++ (modifierTokens .static m.isStatic
        ++ .ident name :: (tokensAfter .return' returns ++ .keyword .from'
          :: (enclose .round tp ++ (breaks ++ enclose .curly tb)))))
      (.function name parameters body returns m) := by
  refine (((eventually_takesTypes returns).and hp.takes).and hb.takes).mono fun r hr => ?_
  obtain ⟨⟨ht, hparameters⟩, hbody⟩ := hr
  have hscopes := (hp.passes.enclose .round).append (hb.passes_scope hbreaks)
  have hpasses := (passes_tokensAfter .curly .return' returns).append
    (Scope.Passes.keyword .from' hscopes)
  refine ⟨starts_of_modifiers m name _, ?_, fun rest _ => ?_⟩
  · exact (passes_modifierTokens _ _ _).append
      ((passes_modifierTokens _ _ _).append (.ident name hpasses))
  · exact member_takes_function name m ht hp.closes hparameters
      (block_takes hbreaks hb.closes hbody rest)

end Bodies

end Inner

end ModelScript
