import ModelScript.Proofs.Expression.Acceptance

/-!
# What a reading makes of its tokens

`Accounted n ts ds` is the ledger of a reading with `n` warnings: it lays the tokens `ts` out as
tokens without a value, tokens whose value is among `ds`, scopes, and the scopes of lists that were
left out with a warning.  Every token stands in it once and in its place, so what a tree holds is
what its tokens hold.  The reader of expressions keeps the ledger at every depth
(`accounted_of_yields`).
-/

namespace ModelScript

open Token (Blank enclose)

/-! ## Values -/

/-- A value that a token bears: a leaf, an operator or prefix, or a string literal as it is read. -/
inductive Datum where
  | atom (kind : Atom) (text : String)
  | operator (text : String)
  | string (node : Expr)

/-- The value of a token, string literals by the nodes that they are read as. -/
def Token.data (node : String → Expr) : Token → List Datum
  | ident name => [.atom .identifier name]
  | integer text => [.atom .integer text]
  | float text => [.atom .float text]
  | string raw => [.string (node raw)]
  | boolean text => [.atom .boolean text]
  | operator text => [.operator text]
  | prefixOperator text => [.operator text]
  | newline | keyword _ | mark _ => []

mutual

/-- The values in an expression, in source order.  String literals are not entered. -/
def Expr.data : Expr → List Datum
  | .atom .string text => [.string (.atom .string text)]
  | .atom kind text => [.atom kind text]
  | .templated parts => [.string (.templated parts)]
  | .list elements => Expr.listData elements
  | .access name index => .atom .identifier name :: index.data
  | .call name arguments => .atom .identifier name :: Expr.listData arguments
  | .prefixed operator operand => .operator operator :: operand.data
  | .grouped inner => inner.data
  | .operation left operator right => left.data ++ .operator operator :: right.data

/-- The values in expressions one after the other. -/
def Expr.listData : List Expr → List Datum
  | [] => []
  | e :: es => e.data ++ Expr.listData es

end

/-! ## The ledger -/

/-- The tokens are the only element of a list, and the reader of expressions refuses them. -/
def Expr.Dropped (n : Nat) (ts : List Token) : Prop :=
  ∃ file depth, (Expr.read file depth).Drops n ts

/-- The tokens of a reading with so many warnings, and the values that it has made of them. -/
inductive Accounted : Nat → List Token → List Datum → Prop
  | nil : Accounted 0 [] []
  | token {t : Token} (node : String → Expr) (hs : ∀ raw, t ≠ .string raw)
    (ho : ∀ b, t ≠ .opening b) (hc : ∀ b, t ≠ .closing b) : Accounted 0 [t] (t.data node)
  | string {file : String} {depth line n : Nat} {raw : String} {e : Expr}
    (h : (Expr.readString file (Expr.read file depth) line raw).Yields n e) :
    Accounted n [.string raw] [.string e]
  | scope (b : Bracket) {n : Nat} {ts : List Token} {ds : List Datum} (h : Accounted n ts ds) :
    Accounted n (enclose b ts) ds
  /-- The only element of a list is left out, with a warning and perhaps some from inside it. -/
  | dropped {n : Nat} {b : Bracket} {ts : List Token} (hb : b ≠ .curly) (hc : Scope.Closes b ts)
    (h : Expr.Dropped n ts) : Accounted (n + 1) (enclose b ts) []
  | append {m n : Nat} {ts us : List Token} {ds es : List Datum} (h : Accounted m ts ds)
    (h' : Accounted n us es) : Accounted (m + n) (ts ++ us) (ds ++ es)

namespace Accounted

variable {n : Nat} {ts us : List Token} {ds es : List Datum}

theorem silent {t : Token} (h : t = .newline ∨ t = .mark .comma ∨ ∃ k, t = .keyword k) :
    Accounted 0 [t] [] := by
  rcases h with rfl | rfl | ⟨k, rfl⟩
  · exact .token (.atom .string) (by simp) (by simp) (by simp)
  · exact .token (.atom .string) (by simp) (by simp) (by simp)
  · exact .token (.atom .string) (by simp) (by simp) (by simp)

theorem ident (name : String) : Accounted 0 [.ident name] [.atom .identifier name] :=
  .token (.atom .string) (by simp) (by simp) (by simp)

theorem operator (op : String) : Accounted 0 [.operator op] [.operator op] :=
  .token (.atom .string) (by simp) (by simp) (by simp)

theorem keyword (k : Keyword) : Accounted 0 [.keyword k] [] := silent (.inr (.inr ⟨k, rfl⟩))

theorem cons {t : Token} {d : List Datum} (h : Accounted 0 [t] d) (h' : Accounted n ts ds) :
    Accounted n (t :: ts) (d ++ ds) :=
  Nat.zero_add n ▸ h.append h'

theorem skip {t : Token} (h : Accounted 0 [t] []) (h' : Accounted n ts ds) :
    Accounted n (t :: ts) ds :=
  h.cons h'

end Accounted

theorem accounted_of_blank {ts : List Token} (h : Blank ts) : Accounted 0 ts [] := by
  induction ts with
  | nil => exact .nil
  | cons t ts ih =>
    obtain ⟨rfl, hts⟩ := (Token.blank_cons _ _).1 h
    exact (Accounted.silent (.inl rfl)).skip (ih hts)

theorem Accounted.between {n : Nat} {as ts bs : List Token} {ds : List Datum} (ha : Blank as)
    (hb : Blank bs) (h : Accounted n ts ds) : Accounted n (as ++ ts ++ bs) ds := by
  have := ((accounted_of_blank ha).append h).append (accounted_of_blank hb)
  rwa [List.nil_append, List.append_nil, Nat.zero_add, Nat.add_zero] at this

/-- Without warnings, the string literals of a ledger are read without warnings. -/
theorem Accounted.exists_readsString {n : Nat} {ts : List Token} {ds : List Datum}
    (h : Accounted n ts ds) (hn : n = 0) {raw : String} (hraw : .string raw ∈ ts) :
    ∃ e, ReadsString raw e := by
  induction h with
  | nil => cases hraw
  | token node hs ho hc => exact absurd (List.mem_singleton.1 hraw).symm (hs raw)
  | string h =>
    cases List.mem_singleton.1 hraw
    subst hn
    exact ⟨_, _, _, _, h⟩
  | scope b h ih => exact ih hn (by simpa [enclose] using hraw)
  | dropped => cases hn
  | append _ _ ih ih' =>
    obtain ⟨rfl, rfl⟩ := Nat.add_eq_zero_iff.1 hn
    rcases List.mem_append.1 hraw with hraw | hraw
    · exact ih rfl hraw
    · exact ih' rfl hraw

/-! ## Expressions -/

namespace Expr

theorem data_of_readString {file : String} {read : ExprReader} {line n : Nat} {raw : String} {e : Expr}
    (h : (readString file read line raw).Yields n e) : e.data = [.string e] := by
  unfold readString at h
  split at h
  · obtain ⟨-, rfl⟩ := (Logged.yields_pure _ _ _).1 h
    simp [data]
  · obtain ⟨es, -, rfl⟩ := (Logged.yields_map _ _ _ _).1 h
    simp [data]

section

variable {file : String} {depth : Nat}
  (hr : ∀ {n ts e}, (Expr.read file depth).Gives n ts e → Accounted n ts e.data)
include hr

theorem Elements.accounted {n : Nat} {ts : List Token} {es : List Expr}
    (h : Elements (Expr.read file depth) n ts es) : Accounted n ts (listData es) := by
  induction h with
  | last h =>
    rw [listData, listData, List.append_nil]
    exact hr h
  | cons h _ ih => exact (hr h).append ((Accounted.silent (.inr (.inl rfl))).skip ih)

/-- The brackets of a list stand around its elements, or around nothing that is kept. -/
theorem Listed.accounted {b : Bracket} (hb : b ≠ .curly) {n : Nat} {ts : List Token}
    {es : List Expr} (hc : Scope.Closes b ts) (h : Listed (Expr.read file depth) n ts es) :
    Accounted n (enclose b ts) (listData es) := by
  cases h with
  | empty => exact .scope b .nil
  | dropped h => exact .dropped hb hc ⟨file, depth, h⟩
  | elements h => exact .scope b (h.accounted hr)

theorem Alone.accounted {n : Nat} {ts : List Token} {e : Expr}
    (h : Alone file (Expr.read file depth) n ts e) : Accounted n ts e.data := by
  have hname (name : String) {breaks us : List Token} {n : Nat} {ds : List Datum}
      (hb : Blank breaks) (h : Accounted n us ds) :
      Accounted n (.ident name :: breaks ++ us) (.atom .identifier name :: ds) := by
    have := h.between hb Token.Blank.nil
    rw [List.append_nil] at this
    exact (Accounted.ident name).cons this
  cases h with
  | @atom t kind text h hk =>
    have hd : (Expr.atom kind text).data = t.data (.atom .string) := by
      cases t <;> cases h <;> rfl
    rw [hd]
    refine .token _ ?_ ?_ ?_ <;> rintro _ rfl <;> cases h
    exact hk rfl
  | string h =>
    rw [data_of_readString h]
    exact .string h
  | grouped h =>
    rw [data]
    exact .scope .round (hr h)
  | list hc h => exact h.accounted hr (by simp) hc
  | call name hb hc h => exact hname name hb (h.accounted hr (by simp) hc)
  | access name hb ha hbs h => exact hname name hb (.scope .square ((hr h).between ha hbs))

theorem Step.accounted {n : Nat} {ts : List Token} {e : Expr}
    (h : Step file (Expr.read file depth) n ts e) : Accounted n ts e.data := by
  cases h with
  | alone h => exact h.accounted hr
  | @prefixed n t op ts e ht h =>
    have hp : Accounted 0 [t] [.operator op] := by
      cases (Token.prefixOf?_eq_some_iff t op).1 ht with
      | own => exact .token (.atom .string) (by simp) (by simp) (by simp)
      | sign _ => exact .operator op
    exact hp.cons (hr h)
  | operation op hw hb h h' =>
    have hleft := (hr h).between Token.Blank.nil hb
    exact hleft.append ((Accounted.operator op).cons (hr h'))

end

/-- The reader of expressions accounts for all of its tokens. -/
theorem accounted_of_yields {file : String} {depth line n reached : Nat} {ts : List Token} {e : Expr}
    (h : (Expr.read file depth line ts).Yields n (e, reached)) : Accounted n ts e.data := by
  induction depth generalizing line n reached ts e with
  | zero => exact absurd h (Logged.not_yields_fail _ _ _)
  | succ depth ih =>
    obtain ⟨as, body, bs, rfl, ha, hb, hstep⟩ := exists_step_of_readStep h
    refine (hstep.accounted ?_).between ha hb
    rintro n ts e ⟨line, reached, h⟩
    exact ih h

end Expr

end ModelScript
