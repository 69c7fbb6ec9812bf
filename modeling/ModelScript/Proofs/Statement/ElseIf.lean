import Mathlib.Data.List.Permutation
import ModelScript.Proofs.Statement.Concatenation
import ModelScript.Proofs.Statement.Embedding

/-!
# Conditionals behind `else`

A conditional right behind `else` is short for a body with nothing but this conditional in it:

    if c { B } else T          stands for          if c { B } else { T }

Both are read as the same statement, which holds `T` as the only statement of its last body, and so
a chain of any length is read as bodies nested in each other (`read_chained`).  Behind `else` the
reader takes `T` from the front of all the tokens that are left, and in braces from a scope that was
cut out.  This makes no difference because `T` ends with a brace: it is taken as a whole in both
cases, and no `else` behind it is left to a conditional further out.
-/

namespace ModelScript

open Token (Blank Trimmed enclose)
open Logged (yields_bind_zero yields_pure_pair)

/-! ## Statements alone in a file -/

namespace Inner

theorem blank_of_lines_nil {r : Inner} {α : Type} {item : Reader α} {fuel last : Nat} {u : Unread}
    (hf : u.tokens.length ≤ fuel) (h : (r.lines item fuel u).Yields 0 ([], last)) :
    Blank u.tokens := by
  by_cases hb : u.skipNewlines.tokens = []
  · exact (Token.trimStart_eq_nil_iff _).1 hb
  · have hpos := List.length_pos_of_ne_nil hb
    have hle := (Took.refl u.skipNewlines).of_skipNewlines.length_le
    obtain ⟨fuel, rfl⟩ : ∃ k, fuel = k + 1 := ⟨fuel - 1, by omega⟩
    rw [r.lines_of_not_blank item fuel hb] at h
    obtain ⟨_, -, h⟩ := (yields_bind_zero _ _ _).1 h
    obtain ⟨_, -, h⟩ := (yields_bind_zero _ _ _).1 h
    obtain ⟨_, -, h⟩ := (yields_bind_zero _ _ _).1 h
    obtain ⟨-, hnil, -⟩ := (yields_pure_pair _ _ _ _ _).1 h
    cases hnil

/-- A file with one statement in it, and no line break around, is an item of a body. -/
theorem item_of_parse {file : String} {depth line last : Nat} {t : Token} {ts : List Token}
    {s : Statement} (hs : t.Starts) (htrimmed : Trimmed (t :: ts))
    (h : (parseWithin depth file ⟨t :: ts, line⟩).Yields 0 ([s], last)) :
    Eventually fun r => Item r.statement (t :: ts) s := by
  have hpasses := (accounted_of_parse h).passes rfl .curly
  refine ⟨depth, fun file' depth' hle => ⟨⟨t, ts, rfl, hs⟩, hpasses, fun rest he line' => ?_⟩⟩
  have hlines := yields_lines_of_parse hle h file' line' (Nat.le_refl _)
  have hskip := Unread.skipNewlines_of_ne hs.1 ts line'
  rw [List.length_cons, lines_of_not_blank _ _ _ (by simp [hskip]), hskip] at hlines
  obtain ⟨⟨a, v⟩, ha, hlines⟩ := (yields_bind_zero _ _ _).1 hlines
  obtain ⟨_, -, hlines⟩ := (yields_bind_zero _ _ _).1 hlines
  obtain ⟨⟨as, last'⟩, has, hlines⟩ := (yields_bind_zero _ _ _).1 hlines
  obtain ⟨-, hbody, -⟩ := (yields_pure_pair _ _ _ _ _).1 hlines
  obtain ⟨rfl, rfl⟩ := List.cons.inj hbody
  -- What the statement leaves is blank, and the tokens do not end in line breaks.
  obtain ⟨⟨taken, htaken, -⟩, hlt⟩ := (keeps_atDepth file' depth').statement ha
  have hblank := blank_of_lines_nil (Nat.le_of_lt_succ hlt) has
  have htrimmed' : Trimmed (taken ++ v.tokens) := by rwa [← htaken]
  have hnil := htrimmed'.eq_nil_of_blank_tail hblank
  have hlast := ((located_atDepth file' depth').statement _).result ha |>.last_eq
  have hbefore := (extends_atDepth file' depth').statement.before he ha
  obtain ⟨tokens, reached⟩ := v
  cases hnil
  have hreached : reached = line' + Token.newlines (t :: ts) := hlast
  rwa [hreached] at hbefore

end Inner

/-! ## Chains -/

/-- A chain of conditionals with `else` right in front of the next one, the same conditionals each
in a body of its own behind `else`, and the statement that they stand for.  The last conditional of
a chain is any that is read from its tokens without a warning, up to its last brace. -/
inductive Chained : List Token → List Token → Statement → Prop
  | last {ts : List Token} {s : Statement} (hcurly : ts.getLast? = some (.closing .curly))
    (h : ∃ file depth line last,
      (parseWithin depth file ⟨.keyword .if' :: ts, line⟩).Yields 0 ([s], last)) :
    Chained (.keyword .if' :: ts) (.keyword .if' :: ts) s
  | link {tc breaks tb ts us : List Token} {condition : Expr} {body : List Statement}
    {s : Statement} (hc : ReadInLine tc condition) (hbreaks : Blank breaks)
    (hb : ∃ file depth line last, (parseWithin depth file ⟨tb, line⟩).Yields 0 (body, last))
    (h : Chained ts us s) :
    Chained
      (.keyword .if' :: (tc ++ (breaks ++ enclose .curly tb ++ .keyword .else' :: ts)))
      (.keyword .if' :: (tc ++
        (breaks ++ enclose .curly tb ++ .keyword .else' :: enclose .curly us)))
      (.conditional condition body (some [s]))

theorem Chained.exists_cons {ts us : List Token} {s : Statement} (h : Chained ts us s) :
    ∃ ts', ts = .keyword .if' :: ts' := by
  cases h with
  | last => exact ⟨_, rfl⟩
  | link => exact ⟨_, rfl⟩

/-- Both forms of a chain are items of a body, for the same statement. -/
theorem Chained.items {ts us : List Token} {s : Statement} (h : Chained ts us s) :
    (Inner.Eventually fun r => Inner.Item r.statement ts s) ∧
      Inner.Eventually fun r => Inner.Item r.statement us s := by
  induction h with
  | @last ts s hcurly h =>
    obtain ⟨file, depth, line, last, h⟩ := h
    have htrimmed : Trimmed (.keyword .if' :: ts) :=
      ⟨by simp, by simp [List.getLast?_cons, hcurly]⟩
    have hitem := Inner.item_of_parse (Inner.starts_keyword (by simp)) htrimmed h
    exact ⟨hitem, hitem⟩
  | link hc hbreaks hb h ih =>
    obtain ⟨file, depth, line, last, hb⟩ := hb
    have hbody := Inner.enclosed_of_parse hb
    obtain ⟨ts, rfl⟩ := h.exists_cons
    exact ⟨Inner.item_of_conditional hc.derives hbreaks hbody (Inner.tail_of_chain ih.1),
      Inner.item_of_conditional hc.derives hbreaks hbody
        (Inner.tail_of_body (Inner.Enclosed.of_item ih.2))⟩

/-! ## Files -/

/-- The tokens are read as the statements wherever they stand.  At every depth at which they are not
too deep they are read to their end without a warning, and from some depth on they are not. -/
def ReadAs (ts : List Token) (body : List Statement) : Prop :=
  (∀ depth file line, (parseWithin depth file ⟨ts, line⟩).Finishes →
      (parseWithin depth file ⟨ts, line⟩).Yields 0 (body, line + Token.newlines ts)) ∧
    ∃ d, ∀ depth file line, d ≤ depth → (parseWithin depth file ⟨ts, line⟩).Finishes

/-- What can be read between braces can be read as a file. -/
theorem Inner.Enclosed.readAs {ts : List Token} {body : List Statement}
    (h : Inner.Enclosed .curly Inner.statements ts body) : ReadAs ts body := by
  obtain ⟨d, hd⟩ := h.takes
  have hdeep {depth line : Nat} {file : String} (hle : d ≤ depth) :
      (parseWithin depth file ⟨ts, line⟩).Yields 0 (body, line + Token.newlines ts) :=
    (yields_parseWithin_iff _ _ _ _ _).2 (hd file depth hle line)
  refine ⟨fun depth file line hfinishes => ?_, d, fun depth file line hle => ?_⟩
  · have htracks : Reading.Tracks SameResult ((Inner.atDepth file depth).statements ⟨ts, line⟩)
        ((Inner.atDepth file (max d depth)).statements ⟨ts, line⟩) :=
      (Inner.tracks_atDepth file file (Nat.le_max_right d depth)).statements (.refl ts)
    have hyields := hd file (max d depth) (Nat.le_max_left d depth) line
    rcases htracks.tooDeep_or_yields hyields with htoo | ⟨⟨body', last⟩, hread, rfl, -⟩
    · exact absurd htoo hfinishes.of_bind
    · obtain rfl := ((Inner.located_atDepth file depth).statements ⟨ts, line⟩).result hread
      exact (yields_parseWithin_iff _ _ _ _ _).2 hread
  · unfold Reading.Finishes
    rw [(hdeep hle).1]
    simp

/-- `else if` is short for a conditional alone in a body behind `else`.  A chain of conditionals of
any length and the same conditionals nested in each other are both read as the conditional whose
last body holds the rest of the chain. -/
theorem read_chained {ts us : List Token} {s : Statement} (h : Chained ts us s) :
    ReadAs ts [s] ∧ ReadAs us [s] :=
  ⟨(Inner.Enclosed.of_item h.items.1).readAs, (Inner.Enclosed.of_item h.items.2).readAs⟩

/-- Three conditions, a line break in a body, and a last `else` that belongs to the last of them. -/
theorem read_chained_three :
    let last : List Token :=
      [.keyword .if', .ident "c", .opening .curly, .closing .curly, .keyword .else',
        .opening .curly, .keyword .return', .closing .curly]
    let ts : List Token :=
      [.keyword .if', .ident "a", .opening .curly, .newline, .keyword .return', .closing .curly,
        .keyword .else', .keyword .if', .ident "b", .opening .curly, .closing .curly,
        .keyword .else'] ++ last
    let us : List Token :=
      [.keyword .if', .ident "a", .opening .curly, .newline, .keyword .return', .closing .curly,
        .keyword .else', .opening .curly, .keyword .if', .ident "b", .opening .curly,
        .closing .curly, .keyword .else', .opening .curly] ++ last
        ++ [.closing .curly, .closing .curly]
    let s : Statement :=
      .conditional (.atom .identifier "a") [.result none]
        (some [.conditional (.atom .identifier "b") []
          (some [.conditional (.atom .identifier "c") [] (some [.result none])])])
    Chained ts us s ∧ ReadAs ts [s] ∧ ReadAs us [s] := by
  intro last ts us s
  have hcondition (name : String) : ReadInLine [.ident name] (.atom .identifier name) :=
    ⟨by simp, "condition", 1, 1, 1, ⟨rfl, rfl⟩⟩
  have hlast : Chained last last
      (.conditional (.atom .identifier "c") [] (some [.result none])) :=
    .last rfl ⟨"chain", 2, 1, 1, by cbv, by cbv⟩
  have hempty : (parseWithin 1 "body" ⟨[], 1⟩).Yields 0 ([], 1) := ⟨by cbv, by cbv⟩
  have hreturn : (parseWithin 1 "body" ⟨[.newline, .keyword .return'], 1⟩).Yields 0
      ([.result none], 2) := ⟨by cbv, by cbv⟩
  have h : Chained ts us s :=
    (hlast.link (hcondition "b") Blank.nil ⟨_, _, _, _, hempty⟩).link (hcondition "a") Blank.nil
      ⟨_, _, _, _, hreturn⟩
  exact ⟨h, read_chained h⟩

end ModelScript
