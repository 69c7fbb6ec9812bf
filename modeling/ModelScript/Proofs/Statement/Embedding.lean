import Mathlib.Data.List.Permutation
import ModelScript.Proofs.Expression.Acceptance
import ModelScript.Proofs.Statement.Items
import ModelScript.Proofs.Statement.Respaced

/-!
# Files as bodies

What is read as a file without a warning can stand as the body of a loop, of a conditional or of a
function, and is read there as the same statements, however many of them are nested in each other
(`parse_nested`).  The body is cut out where its brackets close, and a file that was read accounts
for all of its tokens, so none of the brackets in it is left open.
-/

namespace ModelScript

open Token (Blank enclose)

/-! ## Reading between brackets -/

/-- When nothing is left out, brackets of every shape close. -/
theorem Accounted.passes {n : Nat} {ts : List Token} {ds : List Datum} (h : Accounted n ts ds)
    (hn : n = 0) (b : Bracket) : Scope.Passes b ts := by
  induction h with
  | nil => exact .nil b
  | token node hs ho hc => exact (Scope.Passes.nil b).cons (ho b) (hc b)
  | string h => exact (Scope.Passes.nil b).cons (by simp) (by simp)
  | scope b' h ih => exact (ih hn).enclose b'
  | dropped => cases hn
  | append h h' ih ih' => exact (ih (by omega)).append (ih' (by omega))

namespace Inner

/-- What a reader at some level makes of all its tokens without a warning, the reader makes of them
between brackets, at that level and at every deeper one. -/
theorem enclosed_of_yields {α : Type} {b : Bracket} {read : Inner → WholeReader α}
    {data : α → List Datum} {file : String} {depth line last : Nat} {ts : List Token} {a : α}
    (hkeeps : (read (atDepth file depth)).Keeps data)
    (htracks : ∀ file' depth', depth ≤ depth' →
      (read (atDepth file depth)).Tracks (read (atDepth file' depth')))
    (hlocated : ∀ file' depth',
      (read (atDepth file' depth')).Located (atDepth file' depth').file)
    (h : (read (atDepth file depth) ⟨ts, line⟩).Yields 0 (a, last)) : Enclosed b read ts a := by
  have hpasses := (hkeeps h).passes rfl
  refine ⟨(hpasses b).closes, hpasses .curly, depth, fun file' depth' hle line' => ?_⟩
  have hsame := htracks file' depth' hle (u := ⟨ts, line⟩) (v := ⟨ts, line'⟩) (.refl ts)
  exact hsame.yields_last (hlocated file' depth' ⟨ts, line'⟩) h

theorem enclosed_of_parse {file : String} {depth line last : Nat} {ts : List Token}
    {body : List Statement} (h : (parseWithin depth file ⟨ts, line⟩).Yields 0 (body, last)) :
    Enclosed .curly Inner.statements ts body :=
  enclosed_of_yields (keeps_atDepth file depth).statements
    (fun file' _ hle => (tracks_atDepth file file' hle).statements)
    (fun file' depth' => (located_atDepth file' depth').statements)
    ((yields_parseWithin_iff _ _ _ _ _).1 h)

theorem enclosed_of_parameterList {file : String} {depth line last : Nat} {ts : List Token}
    {ps : List Parameter}
    (h : ((atDepth file depth).parameters ⟨ts, line⟩).Yields 0 (ps, last)) :
    Enclosed .round Inner.parameters ts ps :=
  enclosed_of_yields (keeps_atDepth file depth).parameters
    (fun file' _ hle => (tracks_atDepth file file' hle).parameters)
    (fun file' depth' => (located_atDepth file' depth').parameters) h

theorem Enclosed.of_item {ts : List Token} {s : Statement}
    (h : Eventually fun r => Item r.statement ts s) : Enclosed .curly Inner.statements ts [s] :=
  enclosed_of_items (h.mono fun _ hitem => .last hitem)

end Inner

/-! ## Nesting -/

/-- The tokens stand in one line and are read as the expression without a warning. -/
def ReadInLine (ts : List Token) (e : Expr) : Prop :=
  .newline ∉ ts ∧
    ∃ file depth line reached, (Expr.read file depth line ts).Yields 0 (e, reached)

theorem ReadInLine.derives {ts : List Token} {e : Expr} (h : ReadInLine ts e) : Derives ts e := by
  obtain ⟨hline, file, depth, line, reached, hyields⟩ := h
  have hunbroken : Token.unbroken ts = ts := Token.unbroken_eq_self fun t ht hnewline =>
    hline (hnewline ▸ ht)
  exact hunbroken ▸ Expr.derives_of_yields hyields

/-- Tokens that have `B` inside of bodies, and the statements that have `b` there: the body of a
loop, of a conditional, or of a function that is the only member of a model, again and again. -/
inductive Nested (B : List Token) (b : List Statement) : List Token → List Statement → Prop
  | here : Nested B b B b
  | loop {tc breaks ts : List Token} {condition : Expr} {body : List Statement}
    (hc : ReadInLine tc condition) (hbreaks : Blank breaks) (h : Nested B b ts body) :
    Nested B b (.keyword .while' :: (tc ++ (breaks ++ enclose .curly ts))) [.loop condition body]
  | conditional {tc breaks ts : List Token} {condition : Expr} {body : List Statement}
    (hc : ReadInLine tc condition) (hbreaks : Blank breaks) (h : Nested B b ts body) :
    Nested B b (.keyword .if' :: (tc ++ (breaks ++ enclose .curly ts)))
      [.conditional condition body none]
  | function (model name : String) (returns : Option TypeRef) (m : Modifiers)
    {outer before tp breaks after ts : List Token} {ps : List Parameter} {body : List Statement}
    (houter : Blank outer) (hbefore : Blank before)
    (hp : ∃ file depth line last,
      ((Inner.atDepth file depth).parameters ⟨tp, line⟩).Yields 0 (ps, last))
    (hbreaks : Blank breaks) (hafter : Blank after) (h : Nested B b ts body) :
    Nested B b (.keyword .describe :: .ident model :: (outer ++ enclose .curly (before ++
      (modifierTokens .private' m.isPrivate ++ (modifierTokens .static m.isStatic
        ++ .ident name :: (tokensAfter .return' returns ++ .keyword .from'
          :: (enclose .round tp ++ (breaks ++ enclose .curly ts))))) ++ after)))
      [.model model [.function name ps body returns m]]

theorem Lines.between {α : Type} {W : List Token → α → Prop} {before ts after : List Token} {a : α}
    (hbefore : Blank before) (h : W ts a) (hafter : Blank after) :
    Lines W (before ++ ts ++ after) [a] := by
  have hnone {bs : List Token} (hb : Blank bs) : Lines W bs [] := by
    induction bs with
    | nil => exact .nil
    | cons t bs ih =>
      obtain ⟨rfl, hblank⟩ := (Token.blank_cons _ _).1 hb
      exact .newline (ih hblank)
  have hitem : Lines W (ts ++ after) [a] := by
    cases after with
    | nil =>
      rw [List.append_nil]
      exact .last h
    | cons t after =>
      obtain ⟨rfl, hblank⟩ := (Token.blank_cons _ _).1 hafter
      exact .cons h (hnone hblank)
  rw [List.append_assoc]
  induction before with
  | nil => exact hitem
  | cons t before ih =>
    obtain ⟨rfl, hblank⟩ := (Token.blank_cons _ _).1 hbefore
    exact .newline (ih hblank)

/-- One more body around the tokens does not change how they are read. -/
theorem Nested.enclosed {B : List Token} {b : List Statement}
    (hB : Inner.Enclosed .curly Inner.statements B b) {ts : List Token} {body : List Statement}
    (h : Nested B b ts body) : Inner.Enclosed .curly Inner.statements ts body := by
  induction h with
  | here => exact hB
  | loop hc hbreaks _ ih => exact .of_item (Inner.item_of_loop hc.derives hbreaks ih)
  | conditional hc hbreaks _ ih =>
    have hitem := Inner.item_of_conditional hc.derives hbreaks ih (.of_forall Inner.Tail.nothing)
    simp only [List.append_nil] at hitem
    exact .of_item hitem
  | function model name returns m houter hbefore hp hbreaks hafter _ ih =>
    obtain ⟨file, depth, line, last, hp⟩ := hp
    have hfunction := Inner.item_of_function name returns m (Inner.enclosed_of_parameterList hp)
      hbreaks ih
    have hmembers := Inner.enclosed_of_members
      (hfunction.mono fun _ hitem => Lines.between hbefore hitem hafter)
    exact .of_item (Inner.item_of_model model houter hmembers)

/-- How a file is read does not depend on where it stands.  If it is read without a warning, then
with any number of loops, conditionals and functions around it, it is read as the body in their
midst: from some depth on, in every file and from every line, all tokens are taken without a warning
and the same statements stand in the innermost body. -/
theorem parse_nested {file : String} {depth line last : Nat} {B : List Token}
    {b : List Statement} (hB : (parseWithin depth file ⟨B, line⟩).Yields 0 (b, last))
    {ts : List Token} {body : List Statement} (h : Nested B b ts body) :
    ∃ d, ∀ file line depth, d ≤ depth →
      (parseWithin depth file ⟨ts, line⟩).Yields 0 (body, line + Token.newlines ts) := by
  obtain ⟨d, hd⟩ := (h.enclosed (Inner.enclosed_of_parse hB)).takes
  refine ⟨d, fun file line depth hle => ?_⟩
  exact (yields_parseWithin_iff _ _ _ _ _).2 (hd file depth hle line)

set_option maxRecDepth 20000 in
/-- A body with braces of its own, in a loop in the only function of a model. -/
theorem parse_nested_function :
    let B : List Token :=
      [.newline, .keyword .if', .ident "a", .opening .curly, .closing .curly, .newline,
        .keyword .return']
    let ts : List Token :=
      [.keyword .describe, .ident "Timer", .opening .curly, .newline, .keyword .static,
        .ident "run", .keyword .from', .opening .round, .ident "a", .keyword .as', .ident "number",
        .closing .round, .newline, .opening .curly, .keyword .while', .ident "a", .opening .curly]
      ++ B ++ [.closing .curly, .closing .curly, .newline, .closing .curly]
    let b : List Statement := [.conditional (.atom .identifier "a") [] none, .result none]
    let body : List Statement :=
      [.model "Timer" [.function "run" [⟨"a", .plain "number"⟩] [.loop (.atom .identifier "a") b]
        none ⟨false, true⟩]]
    (parseWithin 2 "body" ⟨B, 1⟩).Yields 0 (b, 3) ∧ Nested B b ts body ∧
      ∃ d, ∀ file line depth, d ≤ depth →
        (parseWithin depth file ⟨ts, line⟩).Yields 0 (body, line + Token.newlines ts) := by
  intro B ts b body
  have hB : (parseWithin 2 "body" ⟨B, 1⟩).Yields 0 (b, 3) := ⟨by cbv, by cbv⟩
  have hcondition : ReadInLine [.ident "a"] (.atom .identifier "a") :=
    ⟨by simp, "condition", 1, 1, 1, by cbv, by cbv⟩
  have hparameters : ((Inner.atDepth "parameters" 1).parameters
      ⟨[.ident "a", .keyword .as', .ident "number"], 1⟩).Yields 0
        ([⟨"a", .plain "number"⟩], 1) := ⟨by cbv, by cbv⟩
  have hbreak : Blank [.newline] := by simp [Blank]
  have h : Nested B b ts body :=
    .function "Timer" "run" none ⟨false, true⟩ .nil hbreak ⟨_, _, _, _, hparameters⟩ hbreak hbreak
      (.loop hcondition .nil .here)
  exact ⟨hB, h, parse_nested hB h⟩

end ModelScript
