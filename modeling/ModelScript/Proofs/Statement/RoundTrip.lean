import ModelScript.Proofs.Statement.Items
import ModelScript.Statement.Cursor

/-!
# Reading what is written

A file that is written statement by statement is read as these statements (`parse_of_normal`).  The
proof follows the way in which the file is written: at every level the tokens of a statement are one
item for the reader of that level, once the readers may go deep enough.
-/

namespace ModelScript

open Token (enclose)
open Logged (yields_pure)

namespace Inner

/-! ## Statements -/

mutual

theorem item_of_writes {ts : List Token} {s : Statement} :
    Writes ts s → Eventually fun r => Item r.statement ts s
  | .model name h => item_of_model name .nil (enclosed_of_members (members_of_lines h))
  | .declaration name type h => by
    refine ((eventually_takesTypes type).and (eventually_value h)).step fun file depth hr => ?_
    obtain ⟨ht, hv⟩ := hr
    have htype := passes_tokensAfter .curly .as' type
    have hvalue := Scope.Passes.keyword .be (h.balanced.passes .curly)
    exact item_of_readStatement (starts_keyword (by simp))
      (.keyword _ (.ident name (htype.append hvalue)))
      fun rest he => declaration_takes name ht (hv rest he.stops)
  | .change name hi h => by
    refine ((eventually_index hi).and (eventually_value h)).step fun file depth hr => ?_
    obtain ⟨hindex, hv⟩ := hr
    have hvalue := Scope.Passes.keyword .be (h.balanced.passes .curly)
    exact item_of_readStatement (starts_keyword (by simp))
      (.keyword _ (.ident name (hi.passes.append hvalue)))
      fun rest he => change_takes name hindex (hv rest he.stops)
  | .conditional h hb ho => by
    have hbody := enclosed_of_items (items_of_lines hb)
    exact item_of_conditional h .nil hbody (tail_of_writesElse ho)
  | .loop h hb => item_of_loop h .nil (enclosed_of_items (items_of_lines hb))
  | .finish => by
    refine (Eventually.of_forall fun _ => trivial).step fun file depth _ => ?_
    exact item_of_readStatement (starts_keyword (by simp)) (.keyword _ (.nil _))
      fun rest he => result_takes_nothing he
  | .result h => by
    refine (eventually_value h).step fun file depth hv => ?_
    exact item_of_readStatement (starts_keyword (by simp)) (.keyword _ (h.balanced.passes .curly))
      fun rest he => result_takes_value h (hv rest he.stops)
  | .bare h hs => by
    refine (eventually_value h).step fun file depth hv => ?_
    exact ⟨h.exists_starts hs, h.balanced.passes .curly, fun rest he =>
      readStatement_takes_bare h (hv rest he.stops)⟩

theorem items_of_lines {ts : List Token} {body : List Statement} :
    Lines Writes ts body → Eventually fun r => Lines (Item r.statement) ts body
  | .nil => .of_forall fun _ => .nil
  | .newline h => (items_of_lines h).mono fun _ hr => .newline hr
  | .last h => (item_of_writes h).mono fun _ hr => .last hr
  | .cons h h' => ((item_of_writes h).and (items_of_lines h')).mono fun _ hr => .cons hr.1 hr.2

theorem tail_of_writesElse {ts : List Token} {otherwise : Option (List Statement)} :
    WritesElse ts otherwise → Eventually fun r => Tail r ts otherwise
  | .nothing => .of_forall fun r => .nothing r
  | .block h => tail_of_body (enclosed_of_items (items_of_lines h))
  | .chain h => tail_of_chain (item_of_writes h)

theorem item_of_writesMember {ts : List Token} {m : Member} :
    WritesMember ts m → Eventually fun r => Item r.member ts m
  | .property name type m h => by
    refine ((eventually_takesType type).and (eventually_default h)).mono fun r hr => ?_
    obtain ⟨ht, hv⟩ := hr
    have hpasses := Scope.Passes.keyword .as' ((type.passes .curly).append h.passes)
    refine ⟨starts_of_modifiers m name _, ?_, fun rest he => ?_⟩
    · exact (passes_modifierTokens _ _ _).append
        ((passes_modifierTokens _ _ _).append (.ident name hpasses))
    · exact member_takes_property name m ht (hv rest he) (head?_append_ne_of_writesDefault h he)
  | .function name parameters returns m h => by
    have hbody := enclosed_of_items (items_of_lines h)
    exact item_of_function name returns m (enclosed_of_parameters parameters) .nil hbody

theorem members_of_lines {ts : List Token} {members : List Member} :
    Lines WritesMember ts members → Eventually fun r => Lines (Item r.member) ts members
  | .nil => .of_forall fun _ => .nil
  | .newline h => (members_of_lines h).mono fun _ hr => .newline hr
  | .last h => (item_of_writesMember h).mono fun _ hr => .last hr
  | .cons h h' =>
    ((item_of_writesMember h).and (members_of_lines h')).mono fun _ hr => .cons hr.1 hr.2

end

end Inner

/-! ## Files -/

theorem yields_of_lines {ts : List Token} {body : List Statement} (h : Lines Writes ts body) :
    ∃ d, ∀ file line depth, d ≤ depth →
      ((Cursor.start ts line).runWhole (parseWithin depth file)).Yields 0
        (body, ⟨ts, ts.length, line + Token.newlines ts⟩) := by
  obtain ⟨d, hd⟩ := Inner.items_of_lines h
  refine ⟨d, fun file line depth hle => ?_⟩
  have hitems := Inner.lines_takes (r := Inner.atDepth file depth) (hd file depth hle)
    (Nat.le_refl _) line
  have hbody : (parseWithin depth file ⟨ts, line⟩).Yields 0 (body, line + Token.newlines ts) :=
    (yields_parseWithin_iff _ _ _ _ _).2 hitems
  exact hbody.bind_zero ((yields_pure _ _ _).2 ⟨rfl, rfl⟩)

/-- A file whose statements are in normal form can be written, and however it is written, it is read
as the same statements, from its first token to its last and without a warning, by all readers that
may go deep enough. -/
theorem parse_of_normal {body : List Statement} (h : ∀ s ∈ body, s.Normal) :
    (∃ ts, Lines Writes ts body) ∧
      ∀ ts, Lines Writes ts body → ∃ d, ∀ file line depth, d ≤ depth →
        ((Cursor.start ts line).runWhole (parseWithin depth file)).Yields 0
          (body, ⟨ts, ts.length, line + Token.newlines ts⟩) :=
  ⟨exists_lines fun s hs => (h s hs).exists_writes, fun _ hts => yields_of_lines hts⟩

/-- A model with a property and a function, and a conditional with both of its bodies. -/
theorem parse_of_normal_model :
    let ts : List Token :=
      [.keyword .describe, .ident "Square", .opening .curly, .newline,
        .keyword .private', .ident "side", .keyword .as', .ident "number", .newline,
        .ident "grow", .keyword .from', .opening .round, .ident "by", .keyword .as', .ident "number",
        .closing .round, .opening .curly, .newline,
        .keyword .make, .ident "side", .keyword .be, .ident "side", .operator "+", .ident "by",
        .newline, .closing .curly, .newline, .closing .curly, .newline,
        .keyword .if', .ident "ready", .opening .curly, .newline, .keyword .return', .newline,
        .closing .curly, .keyword .else', .opening .curly, .newline, .ident "wait", .opening .round,
        .closing .round, .newline, .closing .curly, .newline]
    let body : List Statement :=
      [.model "Square"
        [.property "side" (.plain "number") ⟨true, false⟩ none,
          .function "grow" [⟨"by", .plain "number"⟩]
            [.change "side" (.operation (.atom .identifier "side") "+" (.atom .identifier "by")) none]
            none ⟨false, false⟩],
        .conditional (.atom .identifier "ready") [.result none] (some [.bare (.call "wait" [])])]
    (∀ s ∈ body, s.Normal) ∧ Lines Writes ts body ∧ ∃ d, ∀ file line depth, d ≤ depth →
      ((Cursor.start ts line).runWhole (parseWithin depth file)).Yields 0
        (body, ⟨ts, 45, line + 11⟩) := by
  intro ts body
  have name (n : String) : Derives [.ident n] (.atom .identifier n) := .atom rfl (by decide)
  have sum := Derives.operation "+" rfl (name "side") (name "by")
  have call : Derives [.ident "wait", .opening .round, .closing .round] (.call "wait" []) :=
    .call "wait" .empty
  have property := WritesMember.property "side" (.plain "number") ⟨true, false⟩ .nothing
  have function := WritesMember.function "grow" [⟨"by", .plain "number"⟩] none ⟨false, false⟩
    (.newline (.cons (.change "side" .nothing sum) .nil))
  have model := Writes.model "Square" (.newline (.cons property (.cons function .nil)))
  have conditional := Writes.conditional (name "ready") (.newline (.cons .finish .nil))
    (.block (.newline (.cons (.bare call id) .nil)))
  have hts : Lines Writes ts body := .cons model (.cons conditional .nil)
  have hside : (Member.property "side" (.plain "number") ⟨true, false⟩ none).Normal :=
    .property _ _ _ (by simp)
  have hchange : (Statement.change "side" _ none).Normal := .change "side" (by simp) sum.normal
  have hmodel := Statement.Normal.model "Square" (List.forall_mem_cons.2
    ⟨hside, List.forall_mem_singleton.2 (.function "grow" [⟨"by", .plain "number"⟩] none
      ⟨false, false⟩ (List.forall_mem_singleton.2 hchange))⟩)
  have hbody : ∀ s ∈ body, s.Normal :=
    List.forall_mem_cons.2 ⟨hmodel, List.forall_mem_singleton.2 (.conditional (name "ready").normal
      (List.forall_mem_singleton.2 (.result (by simp)))
      (by simpa using Statement.Normal.bare call.normal id))⟩
  exact ⟨hbody, hts, (parse_of_normal hbody).2 ts hts⟩

end ModelScript
