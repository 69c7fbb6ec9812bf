import ModelScript.Proofs.Expression.Renumbering
import ModelScript.Proofs.Expression.Step

/-!
# The grammar of expressions

`Derives ts e` says that the tokens `ts`, which hold no line breaks, are a way to write `e`.  The
relation mentions no search for brackets, commas or operators: it puts tokens together where the
reader takes them apart.  That the brackets of a derivation belong together
(`Derives.balanced`) and that an operand is one whole construct (`Derives.whole`) is what lets the
reader find the pieces again.
-/

namespace ModelScript

open Token (Blank Trimmed enclose)
open Scope (Balanced)

/-! ## Derivations -/

/-- A token in front of an operand: a prefix operator, or a sign. -/
inductive Token.Prefixes : Token → String → Prop
  | own (op : String) : Prefixes (.prefixOperator op) op
  | sign {op : String} (h : op = "-" ∨ op = "minus") : Prefixes (.operator op) op

/-- The text of a string literal is read as `e` without a warning. -/
def ReadsString (raw : String) (e : Expr) : Prop :=
  ∃ file depth line, (Expr.readString file (Expr.read file depth) line raw).Yields 0 e

mutual

/-- The tokens are written as the grammar has it for the expression.  An operation takes everything
behind its operator for its right operand, so its left one is neither an operation nor a prefix. -/
inductive Derives : List Token → Expr → Prop
  | atom {t : Token} {kind : Atom} {text : String} (h : t.atom? = some (kind, text))
    (hk : kind ≠ .string) : Derives [t] (.atom kind text)
  | string {raw : String} {e : Expr} (h : ReadsString raw e) : Derives [.string raw] e
  | grouped {ts : List Token} {e : Expr} (h : Derives ts e) :
    Derives (enclose .round ts) (.grouped e)
  | list {ts : List Token} {es : List Expr} (h : DerivesList ts es) :
    Derives (enclose .square ts) (.list es)
  | call (name : String) {ts : List Token} {es : List Expr} (h : DerivesList ts es) :
    Derives (.ident name :: enclose .round ts) (.call name es)
  | access (name : String) {ts : List Token} {e : Expr} (h : Derives ts e) :
    Derives (.ident name :: enclose .square ts) (.access name e)
  | prefixed {t : Token} {op : String} {ts : List Token} {e : Expr} (ht : t.Prefixes op)
    (h : Derives ts e) : Derives (t :: ts) (.prefixed op e)
  | operation (op : String) {left right : List Token} {el er : Expr} (ho : el.isOperand = true)
    (h : Derives left el) (h' : Derives right er) :
    Derives (left ++ .operator op :: right) (.operation el op er)

/-- Nothing, or expressions with single commas between them. -/
inductive DerivesList : List Token → List Expr → Prop
  | empty : DerivesList [] []
  | last {ts : List Token} {e : Expr} (h : Derives ts e) : DerivesList ts [e]
  | cons {ts rest : List Token} {e e' : Expr} {es : List Expr} (h : Derives ts e)
    (h' : DerivesList rest (e' :: es)) : DerivesList (ts ++ .mark .comma :: rest) (e :: e' :: es)

end

theorem Token.prefixOf?_eq_some_iff (t : Token) (op : String) :
    Construct.prefixOf? [t] = some op ↔ t.Prefixes op := by
  constructor
  · intro h
    cases t <;> simp only [Construct.prefixOf?] at h <;> try cases h
    · next text =>
      split at h
      · next hs =>
        cases h
        exact .sign (by simpa [signSpellings] using hs)
      · cases h
    · exact .own op
  · rintro (⟨⟩ | ⟨hs⟩)
    · rfl
    · rcases hs with rfl | rfl <;> rfl

/-! ## The tokens of a derivation -/

theorem Derives.ne_nil {ts : List Token} {e : Expr} (h : Derives ts e) : ts ≠ [] := by
  cases h <;> simp [enclose]

theorem Token.Prefixes.ne_mark {t : Token} {op : String} (h : t.Prefixes op) (m : Mark) :
    t ≠ .mark m := by
  cases h <;> simp

theorem Token.ne_mark_of_atom? {t : Token} {kind : Atom} {text : String}
    (h : t.atom? = some (kind, text)) (m : Mark) : t ≠ .mark m := by
  rintro rfl
  cases h

theorem balanced_singleton (commas : Bool) {t : Token} (h : ∀ m, t ≠ .mark m) :
    Balanced commas [t] :=
  .token commas (fun b => h (.opening b)) (fun b => h (.closing b)) fun _ => h .comma

mutual

/-- The brackets of a derivation belong together, and its commas stand inside of them. -/
theorem Derives.balanced {ts : List Token} {e : Expr} : Derives ts e → Balanced false ts
  | .atom h _ => balanced_singleton false (Token.ne_mark_of_atom? h)
  | .string _ => balanced_singleton false (by simp)
  | .grouped h => .scope false (by simp) h.balanced.allow
  | .list h => .scope false (by simp) h.balanced
  | .call _ h => .append (balanced_singleton false (by simp)) (.scope false (by simp) h.balanced)
  | .access _ h =>
    .append (balanced_singleton false (by simp)) (.scope false (by simp) h.balanced.allow)
  | .prefixed ht h => .append (balanced_singleton false ht.ne_mark) h.balanced
  | .operation op _ h h' =>
    have hop : Balanced false [.operator op] := balanced_singleton false (by simp)
    .append h.balanced (.append hop h'.balanced)

theorem DerivesList.balanced {ts : List Token} {es : List Expr} :
    DerivesList ts es → Balanced true ts
  | .empty => .nil true
  | .last h => h.balanced.allow
  | .cons h h' => h.balanced.allow.append
      (.append (.token true (t := .mark .comma) (by simp) (by simp) (by simp)) h'.balanced)

end

mutual

theorem Derives.ne_newline {ts : List Token} {e : Expr} :
    Derives ts e → ∀ t ∈ ts, t ≠ .newline
  | .atom h _ => by simpa using Token.ne_newline_of_atom? h
  | .string _ => by simp
  | .grouped h => by simpa [enclose, or_imp, forall_and] using h.ne_newline
  | .list h => by simpa [enclose, or_imp, forall_and] using h.ne_newline
  | .call _ h => by simpa [enclose, or_imp, forall_and] using h.ne_newline
  | .access _ h => by simpa [enclose, or_imp, forall_and] using h.ne_newline
  | .prefixed ht h => by
    have hne := h.ne_newline
    cases ht <;> simpa using hne
  | .operation _ _ h h' => by
    simpa [or_imp, forall_and] using And.intro h.ne_newline h'.ne_newline

theorem DerivesList.ne_newline {ts : List Token} {es : List Expr} :
    DerivesList ts es → ∀ t ∈ ts, t ≠ .newline
  | .empty => by simp
  | .last h => h.ne_newline
  | .cons h h' => by
    simpa [or_imp, forall_and] using And.intro h.ne_newline h'.ne_newline

end

theorem Derives.not_blank {ts : List Token} {e : Expr} (h : Derives ts e) : ¬ Blank ts := by
  intro hb
  obtain ⟨t, rest, rfl⟩ := List.exists_cons_of_ne_nil h.ne_nil
  exact h.ne_newline t (by simp) (hb t (by simp))

theorem Derives.whole {ts : List Token} {e : Expr} (h : Derives ts e) (ho : e.isOperand = true) :
    Whole ts := by
  cases h with
  | atom h hk => exact .atom h
  | @string raw _ h => exact .atom (rfl : Token.atom? (.string raw) = some (.string, raw))
  | grouped h => exact .grouped (h.balanced.closes .round) h.not_blank
  | list h => exact .list (h.balanced.closes .square)
  | call name h => exact .call name Blank.nil (h.balanced.closes .round)
  | access name h => exact .access name Blank.nil (h.balanced.closes .square)
  | prefixed ht h => cases ho
  | operation op ho' h h' => cases ho

/-! ## Normal forms -/

/-- The expressions that can be written: left operands of operations are neither operations nor
prefixes, and string literals are read from some text. -/
inductive Expr.Normal : Expr → Prop
  | atom {kind : Atom} (text : String) (hk : kind ≠ .string) : Normal (.atom kind text)
  | string {raw : String} {e : Expr} (h : ReadsString raw e) : Normal e
  | grouped {e : Expr} (h : Normal e) : Normal (.grouped e)
  | list {es : List Expr} (h : ∀ e ∈ es, Normal e) : Normal (.list es)
  | call (name : String) {es : List Expr} (h : ∀ e ∈ es, Normal e) : Normal (.call name es)
  | access (name : String) {e : Expr} (h : Normal e) : Normal (.access name e)
  | prefixed (op : String) {e : Expr} (h : Normal e) : Normal (.prefixed op e)
  | operation (op : String) {el er : Expr} (ho : el.isOperand = true) (h : Normal el)
    (h' : Normal er) : Normal (.operation el op er)

mutual

theorem Derives.normal {ts : List Token} {e : Expr} : Derives ts e → e.Normal
  | .atom _ hk => .atom _ hk
  | .string h => .string h
  | .grouped h => .grouped h.normal
  | .list h => .list h.normal
  | .call name h => .call name h.normal
  | .access name h => .access name h.normal
  | .prefixed _ h => .prefixed _ h.normal
  | .operation op ho h h' => .operation op ho h.normal h'.normal

theorem DerivesList.normal {ts : List Token} {es : List Expr} :
    DerivesList ts es → ∀ e ∈ es, e.Normal
  | .empty => by simp
  | .last h => by simpa using h.normal
  | .cons h h' => List.forall_mem_cons.2 ⟨h.normal, h'.normal⟩

end

theorem exists_derivesList {es : List Expr} (h : ∀ e ∈ es, ∃ ts, Derives ts e) :
    ∃ ts, DerivesList ts es := by
  induction es with
  | nil => exact ⟨[], .empty⟩
  | cons e es ih =>
    obtain ⟨ts, ht⟩ := h e (by simp)
    obtain ⟨rest, hrest⟩ := ih fun e' he => h e' (.tail _ he)
    cases es with
    | nil => exact ⟨ts, .last ht⟩
    | cons e' es => exact ⟨_, .cons ht hrest⟩

theorem exists_atom? (kind : Atom) (text : String) :
    ∃ t : Token, t.atom? = some (kind, text) := by
  cases kind with
  | integer => exact ⟨.integer text, rfl⟩
  | float => exact ⟨.float text, rfl⟩
  | string => exact ⟨.string text, rfl⟩
  | boolean => exact ⟨.boolean text, rfl⟩
  | identifier => exact ⟨.ident text, rfl⟩

/-- An expression can be written exactly if it is in normal form. -/
theorem exists_derives_iff (e : Expr) : (∃ ts, Derives ts e) ↔ e.Normal := by
  constructor
  · rintro ⟨ts, h⟩
    exact h.normal
  · intro h
    induction h with
    | @atom kind text hk =>
      obtain ⟨t, ht⟩ := exists_atom? kind text
      exact ⟨[t], .atom ht hk⟩
    | string h => exact ⟨_, .string h⟩
    | grouped _ ih =>
      obtain ⟨ts, h⟩ := ih
      exact ⟨_, .grouped h⟩
    | list _ ih =>
      obtain ⟨ts, h⟩ := exists_derivesList ih
      exact ⟨_, .list h⟩
    | call name _ ih =>
      obtain ⟨ts, h⟩ := exists_derivesList ih
      exact ⟨_, .call name h⟩
    | access name _ ih =>
      obtain ⟨ts, h⟩ := ih
      exact ⟨_, .access name h⟩
    | prefixed op _ ih =>
      obtain ⟨ts, h⟩ := ih
      exact ⟨_, .prefixed (.own op) h⟩
    | operation op ho _ _ ih ih' =>
      obtain ⟨left, h⟩ := ih
      obtain ⟨right, h'⟩ := ih'
      exact ⟨_, .operation op ho h h'⟩

end ModelScript
