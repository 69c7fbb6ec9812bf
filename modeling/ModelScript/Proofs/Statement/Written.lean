import ModelScript.Proofs.Expression.Grammar
import ModelScript.Statement.Basic

/-!
# How statements are written

`Writes ts s` says that the tokens `ts` write the statement `s`: each statement and each member of a
model on a line of its own, bodies between curly braces, and every expression on one line, as a
derivation of the grammar of expressions.  Blank lines may stand anywhere between statements.
-/

namespace ModelScript

open Token (Blank enclose)

/-! ## Types, parameters and modifiers -/

def TypeRef.tokens : TypeRef → List Token
  | plain name => [.ident name]
  | of name element => .ident name :: .keyword .of :: element.tokens

/-- A keyword and a type, or nothing. -/
def tokensAfter (k : Keyword) : Option TypeRef → List Token
  | none => []
  | some type => .keyword k :: type.tokens

/-- The tokens of parameters, with commas between them. -/
def parameterTokens : List Parameter → List Token
  | [] => []
  | [p] => .ident p.name :: .keyword .as' :: p.type.tokens
  | p :: ps => .ident p.name :: .keyword .as' :: (p.type.tokens ++ .mark .comma :: parameterTokens ps)

theorem parameterTokens_cons (p : Parameter) {ps : List Parameter} (h : ps ≠ []) :
    parameterTokens (p :: ps) = parameterTokens [p] ++ .mark .comma :: parameterTokens ps := by
  obtain ⟨q, qs, rfl⟩ := List.exists_cons_of_ne_nil h
  rfl

/-- Parameters between commas, with line breaks around them.  Nothing but line breaks may stand
behind the last comma. -/
inductive ListsParameters : List Token → List Parameter → Prop
  | nothing {ts : List Token} (h : Blank ts) : ListsParameters ts []
  | last (p : Parameter) {as bs : List Token} (ha : Blank as) (hb : Blank bs) :
    ListsParameters (as ++ (parameterTokens [p] ++ bs)) [p]
  | cons (p : Parameter) {as bs rest : List Token} {ps : List Parameter} (ha : Blank as)
    (hb : Blank bs) (h : ListsParameters rest ps) :
    ListsParameters (as ++ (parameterTokens [p] ++ (bs ++ .mark .comma :: rest))) (p :: ps)

theorem lists_parameterTokens (ps : List Parameter) : ListsParameters (parameterTokens ps) ps := by
  induction ps with
  | nil => exact .nothing .nil
  | cons p ps ih =>
    by_cases hps : ps = []
    · subst hps
      have h := ListsParameters.last p .nil .nil
      rwa [List.nil_append, List.append_nil] at h
    · rw [parameterTokens_cons p hps]
      exact .cons p .nil .nil ih

/-- A keyword, if it is asked for. -/
def modifierTokens (k : Keyword) : Bool → List Token
  | false => []
  | true => [.keyword k]

/-! ## Statements -/

/-- A sign with its operand.  On a line of its own it would continue the line before. -/
def Expr.IsSigned : Expr → Prop
  | .prefixed op _ => op = "-" ∨ op = "minus"
  | _ => False

/-- Items on lines of their own, with blank lines between them. -/
inductive Lines {α : Type} (W : List Token → α → Prop) : List Token → List α → Prop
  | nil : Lines W [] []
  | newline {ts : List Token} {as : List α} (h : Lines W ts as) : Lines W (.newline :: ts) as
  | last {ts : List Token} {a : α} (h : W ts a) : Lines W ts [a]
  | cons {ts rest : List Token} {a : α} {as : List α} (h : W ts a) (h' : Lines W rest as) :
    Lines W (ts ++ .newline :: rest) (a :: as)

/-- The first value of a property after its keyword, or nothing. -/
inductive WritesDefault : List Token → Option Expr → Prop
  | nothing : WritesDefault [] none
  | value {ts : List Token} {e : Expr} (h : Derives ts e) :
    WritesDefault (.keyword .default :: ts) (some e)

/-- An index in brackets, or nothing. -/
inductive WritesIndex : List Token → Option Expr → Prop
  | nothing : WritesIndex [] none
  | index {ts : List Token} {e : Expr} (h : Derives ts e) :
    WritesIndex (enclose .square ts) (some e)

mutual

/-- The tokens write the statement. -/
inductive Writes : List Token → Statement → Prop
  | model (name : String) {ts : List Token} {members : List Member}
    (h : Lines WritesMember ts members) :
    Writes (.keyword .describe :: .ident name :: enclose .curly ts) (.model name members)
  | declaration (name : String) (type : Option TypeRef) {ts : List Token} {e : Expr}
    (h : Derives ts e) :
    Writes (.keyword .let' :: .ident name :: (tokensAfter .as' type ++ .keyword .be :: ts))
      (.declaration name e type)
  | change (name : String) {index : Option Expr} {ti ts : List Token} {e : Expr}
    (hi : WritesIndex ti index) (h : Derives ts e) :
    Writes (.keyword .make :: .ident name :: (ti ++ .keyword .be :: ts)) (.change name e index)
  | conditional {tc tb te : List Token} {e : Expr} {body : List Statement}
    {otherwise : Option (List Statement)} (h : Derives tc e) (hb : Lines Writes tb body)
    (ho : WritesElse te otherwise) :
    Writes (.keyword .if' :: (tc ++ (enclose .curly tb ++ te))) (.conditional e body otherwise)
  | loop {tc tb : List Token} {e : Expr} {body : List Statement} (h : Derives tc e)
    (hb : Lines Writes tb body) :
    Writes (.keyword .while' :: (tc ++ enclose .curly tb)) (.loop e body)
  | finish : Writes [.keyword .return'] (.result none)
  | result {ts : List Token} {e : Expr} (h : Derives ts e) :
    Writes (.keyword .return' :: ts) (.result (some e))
  | bare {ts : List Token} {e : Expr} (h : Derives ts e) (hs : ¬ e.IsSigned) : Writes ts (.bare e)

/-- What the tokens write behind the body of a conditional: nothing, a body, or another
conditional. -/
inductive WritesElse : List Token → Option (List Statement) → Prop
  | nothing : WritesElse [] none
  | block {ts : List Token} {body : List Statement} (h : Lines Writes ts body) :
    WritesElse (.keyword .else' :: enclose .curly ts) (some body)
  | chain {ts : List Token} {s : Statement} (h : Writes (.keyword .if' :: ts) s) :
    WritesElse (.keyword .else' :: .keyword .if' :: ts) (some [s])

/-- The tokens write the member of a model. -/
inductive WritesMember : List Token → Member → Prop
  | property (name : String) (type : TypeRef) (m : Modifiers) {initial : Option Expr}
    {ts : List Token} (h : WritesDefault ts initial) :
    WritesMember (modifierTokens .private' m.isPrivate ++ (modifierTokens .static m.isStatic
      ++ .ident name :: .keyword .as' :: (type.tokens ++ ts))) (.property name type m initial)
  | function (name : String) (parameters : List Parameter) (returns : Option TypeRef)
    (m : Modifiers) {ts : List Token} {body : List Statement} (h : Lines Writes ts body) :
    WritesMember (modifierTokens .private' m.isPrivate ++ (modifierTokens .static m.isStatic
      ++ .ident name :: (tokensAfter .return' returns ++ .keyword .from'
        :: (enclose .round (parameterTokens parameters) ++ enclose .curly ts))))
      (.function name parameters body returns m)

end

/-! ## Normal forms -/

mutual

/-- The statements of a file that can be written: their expressions are in normal form, and none
that stands by itself has a sign in front of it. -/
inductive Statement.Normal : Statement → Prop
  | model (name : String) {members : List Member} (h : ∀ m ∈ members, m.Normal) :
    Statement.Normal (.model name members)
  | declaration (name : String) (type : Option TypeRef) {e : Expr} (h : e.Normal) :
    Statement.Normal (.declaration name e type)
  | change (name : String) {index : Option Expr} {e : Expr} (hi : ∀ i, index = some i → i.Normal)
    (h : e.Normal) : Statement.Normal (.change name e index)
  | conditional {e : Expr} {body : List Statement} {otherwise : Option (List Statement)}
    (h : e.Normal) (hb : ∀ s ∈ body, s.Normal)
    (ho : ∀ o, otherwise = some o → ∀ s ∈ o, s.Normal) :
    Statement.Normal (.conditional e body otherwise)
  | loop {e : Expr} {body : List Statement} (h : e.Normal) (hb : ∀ s ∈ body, s.Normal) :
    Statement.Normal (.loop e body)
  | result {value : Option Expr} (h : ∀ e, value = some e → e.Normal) :
    Statement.Normal (.result value)
  | bare {e : Expr} (h : e.Normal) (hs : ¬ e.IsSigned) : Statement.Normal (.bare e)

/-- The members of models that can be written. -/
inductive Member.Normal : Member → Prop
  | property (name : String) (type : TypeRef) (m : Modifiers) {initial : Option Expr}
    (h : ∀ e, initial = some e → e.Normal) : Member.Normal (.property name type m initial)
  | function (name : String) (parameters : List Parameter) (returns : Option TypeRef)
    (m : Modifiers) {body : List Statement} (h : ∀ s ∈ body, s.Normal) :
    Member.Normal (.function name parameters body returns m)

end

theorem exists_lines {α : Type} {W : List Token → α → Prop} {as : List α}
    (h : ∀ a ∈ as, ∃ ts, W ts a) : ∃ ts, Lines W ts as := by
  induction as with
  | nil => exact ⟨[], .nil⟩
  | cons a as ih =>
    obtain ⟨ts, ht⟩ := h a (by simp)
    obtain ⟨rest, hrest⟩ := ih fun b hb => h b (.tail _ hb)
    exact ⟨_, .cons ht hrest⟩

theorem exists_writesDefault {initial : Option Expr} (h : ∀ e, initial = some e → e.Normal) :
    ∃ ts, WritesDefault ts initial := by
  cases initial with
  | none => exact ⟨[], .nothing⟩
  | some e =>
    obtain ⟨ts, ht⟩ := (exists_derives_iff e).2 (h e rfl)
    exact ⟨_, .value ht⟩

theorem exists_writesIndex {index : Option Expr} (h : ∀ e, index = some e → e.Normal) :
    ∃ ts, WritesIndex ts index := by
  cases index with
  | none => exact ⟨[], .nothing⟩
  | some e =>
    obtain ⟨ts, ht⟩ := (exists_derives_iff e).2 (h e rfl)
    exact ⟨_, .index ht⟩

theorem exists_writesElse {otherwise : Option (List Statement)}
    (h : ∀ o, otherwise = some o → ∃ ts, Lines Writes ts o) : ∃ ts, WritesElse ts otherwise := by
  cases otherwise with
  | none => exact ⟨[], .nothing⟩
  | some o =>
    obtain ⟨ts, ht⟩ := h o rfl
    exact ⟨_, .block ht⟩

mutual

/-- Every statement in normal form can be written. -/
theorem Statement.Normal.exists_writes {s : Statement} : s.Normal → ∃ ts, Writes ts s
  | .model name h => by
    obtain ⟨ts, ht⟩ := exists_lines fun m hm => (h m hm).exists_writes
    exact ⟨_, .model name ht⟩
  | .declaration name type h => by
    obtain ⟨ts, ht⟩ := (exists_derives_iff _).2 h
    exact ⟨_, .declaration name type ht⟩
  | .change name hi h => by
    obtain ⟨ti, hti⟩ := exists_writesIndex hi
    obtain ⟨ts, ht⟩ := (exists_derives_iff _).2 h
    exact ⟨_, .change name hti ht⟩
  | @Statement.Normal.conditional _ _ otherwise h hb ho => by
    obtain ⟨tc, hc⟩ := (exists_derives_iff _).2 h
    obtain ⟨tb, htb⟩ := exists_lines fun s hs => (hb s hs).exists_writes
    obtain ⟨te, hte⟩ := exists_writesElse fun o heq =>
      exists_lines fun s hs => (ho o heq s hs).exists_writes
    exact ⟨_, .conditional hc htb hte⟩
  | .loop h hb => by
    obtain ⟨tc, hc⟩ := (exists_derives_iff _).2 h
    obtain ⟨tb, htb⟩ := exists_lines fun s hs => (hb s hs).exists_writes
    exact ⟨_, .loop hc htb⟩
  | @Statement.Normal.result value h => by
    cases value with
    | none => exact ⟨_, .finish⟩
    | some e =>
      obtain ⟨ts, ht⟩ := (exists_derives_iff e).2 (h e rfl)
      exact ⟨_, .result ht⟩
  | .bare h hs => by
    obtain ⟨ts, ht⟩ := (exists_derives_iff _).2 h
    exact ⟨ts, .bare ht hs⟩

theorem Member.Normal.exists_writes {m : Member} : m.Normal → ∃ ts, WritesMember ts m
  | .property name type m h => by
    obtain ⟨ts, ht⟩ := exists_writesDefault h
    exact ⟨_, .property name type m ht⟩
  | .function name parameters returns m h => by
    obtain ⟨ts, ht⟩ := exists_lines fun s hs => (h s hs).exists_writes
    exact ⟨_, .function name parameters returns m ht⟩

end

/-! ## Brackets in what is written -/

open Scope (Passes)

theorem TypeRef.passes (b : Bracket) : (t : TypeRef) → Passes b t.tokens
  | plain name => .ident name (.nil b)
  | of name element => .ident name (.keyword .of (element.passes b))

theorem passes_tokensAfter (b : Bracket) (k : Keyword) (type : Option TypeRef) :
    Passes b (tokensAfter k type) := by
  cases type with
  | none => exact .nil b
  | some t => exact .keyword k (t.passes b)

theorem passes_parameterTokens (b : Bracket) (ps : List Parameter) :
    Passes b (parameterTokens ps) := by
  induction ps with
  | nil => exact .nil b
  | cons p ps ih =>
    have htype := p.type.passes b
    cases ps with
    | nil => exact .ident p.name (.keyword .as' htype)
    | cons p' ps =>
      have hrest : Passes b (.mark .comma :: parameterTokens (p' :: ps)) :=
        ih.cons (by simp) (by simp)
      exact .ident p.name (.keyword .as' (htype.append hrest))

theorem passes_modifierTokens (b : Bracket) (k : Keyword) (asked : Bool) :
    Passes b (modifierTokens k asked) := by
  cases asked with
  | false => exact .nil b
  | true => exact .keyword k (.nil b)

theorem WritesDefault.passes {b : Bracket} {ts : List Token} {initial : Option Expr}
    (h : WritesDefault ts initial) : Passes b ts := by
  cases h with
  | nothing => exact .nil b
  | value h => exact .keyword .default (h.balanced.passes b)

theorem WritesIndex.passes {b : Bracket} {ts : List Token} {index : Option Expr}
    (h : WritesIndex ts index) : Passes b ts := by
  cases h with
  | nothing => exact .nil b
  | index h => exact (h.balanced.passes b).enclose .square

end ModelScript
