import ModelScript.Proofs.Lookup.Value

/-!
# Statements by look-ups

The reader of statements over a cursor: it asks for the token at an index, takes it, and goes on; a
scope is read with a cursor of its own over a slice of the tokens.  Each of its methods does what
the reader of the same name in `Inner` does, in a file of any tokens and from any place in it.  The
loops over lines and parameters end since each round takes a token.
-/

namespace ModelScript.Lookup

open Looking (item item_eq entry entry_eq bind_eq_of)

/-! ## Tables -/

/-- The tokens that close scopes, by those that open them. -/
def closings : List (Kind × Kind) :=
  [(.mark (.opening .round), .mark (.closing .round)),
    (.mark (.opening .square), .mark (.closing .square)),
    (.mark (.opening .curly), .mark (.closing .curly))]

/-- The brackets of scopes, by the tokens that open them. -/
def scopeKinds : List (Kind × Bracket) :=
  [(.mark (.opening .round), .round), (.mark (.opening .square), .square),
    (.mark (.opening .curly), .curly)]

theorem entry_closings (b : Bracket) :
    entry closings (.mark (.opening b)) = pure (.mark (.closing b)) := by
  cases b <;> rfl

theorem entry_scopeKinds (b : Bracket) : entry scopeKinds (.mark (.opening b)) = pure b := by
  cases b <;> rfl

/-! ## Scopes and lines -/

section

variable {α : Type} (file : String)

/-- Reads a scope that opens at the cursor, all that it holds by `body` from a cursor of its own. -/
def within (opening : Kind) (body : Looker α) : Looker α := fun c => do
  if ← check c opening then
    let closing ← entry closings opening
    match ← rangeOfScope opening closing c.tokens c.position with
    | none =>
      let b ← entry scopeKinds opening
      Looking.fault file c.line (.unmatched b)
    | some (start, stop) =>
      let (_, d) ← advance c
      let (a, inner) ← body (.start ((c.tokens.take stop).drop (start + 1)) d.line)
      return (a, ⟨c.tokens, stop + 1, inner.line⟩)
  else
    let m ← entry markKinds opening
    Looking.fault file c.line (.noToken (.mark m) (← current c))

/-- Reads items, each on its own line, up to the end of the tokens, in less rounds than the fuel. -/
def lines (look : Looker α) : Nat → Looker (List α)
  | 0, _ => .fail (.miss .round)
  | fuel + 1, c => do
    let c ← skipNewlines c
    if c.atEnd then return ([], c)
    let (a, c) ← look c
    endStatement file c
    let (as, c) ← lines look fuel c
    return (a :: as, c)

end

theorem drop_succ_position {c : Cursor} {t : Token} {rest : List Token}
    (h : c.unread.tokens = t :: rest) : c.tokens.drop (c.position + 1) = rest := by
  have hdrop : c.tokens.drop c.position = t :: rest := h
  rw [← List.drop_drop, hdrop]
  rfl

/-- A scope that opens at the cursor ends where the depth falls to zero behind it. -/
theorem range?_position {c : Cursor} {o k : Kind} {t : Token} {rest : List Token}
    (hu : c.unread.tokens = t :: rest) (ht : t.kind = o) :
    Scope.range? o k c.tokens c.position
      = (Scope.close? o k 1 rest).map fun n => (c.position, c.position + 1 + n) := by
  have hdrop : c.tokens.drop c.position = t :: rest := hu
  have hfirst : Scope.firstOf? [o] c.tokens c.position = some c.position := by
    unfold Scope.firstOf?
    rw [hdrop, List.findIdx?_cons]
    simp [ht]
  unfold Scope.range?
  rw [hfirst, Option.bind_eq_bind, Option.bind_some, drop_succ_position hu]
  cases Scope.close? o k 1 rest <;> rfl

theorem mirrors_within {α : Type} {r : Inner} (b : Bracket) {look : Looker α}
    {body : WholeReader α} (h : look.MirrorsWhole body) :
    (within r.file (.mark (.opening b)) look).Mirrors (r.within b body) := by
  intro c hc
  have hlen := hc.length_unread
  unfold within Inner.within Unread.require
  rcases check_cases hc (.mark (.opening b)) with
    ⟨t, d, hcheck, hadvance, hd, hto, ha⟩ | ⟨hcheck, ha⟩
  · obtain ⟨hu, hk⟩ := Unread.eq_of_accept? ha
    rw [hcheck, pure_bind, if_pos rfl, entry_closings, pure_bind, rangeOfScope_eq, pure_bind, ha,
      range?_position hu hk]
    dsimp only
    rw [pure_bind]
    dsimp only
    cases hclose : Scope.close? (.mark (.opening b)) (.mark (.closing b)) 1 d.unread.tokens with
    | none =>
      dsimp only [Option.map_none]
      rw [entry_scopeKinds, pure_bind, ending_fault]
    | some n =>
      have hn := Scope.close?_lt hclose
      have hinner : (c.tokens.take (c.position + 1 + n)).drop (c.position + 1)
          = d.unread.tokens.take n := by
        rw [List.drop_take, Nat.add_sub_cancel_left, drop_succ_position hu]
      have hposition : c.tokens.length - (d.unread.tokens.drop (n + 1)).length
          = c.position + 1 + n + 1 := by
        rw [hu, List.length_cons] at hlen
        rw [List.length_drop]
        omega
      dsimp only [Option.map_some]
      rw [hadvance, pure_bind, hinner]
      dsimp only
      rw [h (Nat.zero_le _)]
      unfold Cursor.ending
      rw [Looking.of_bind, bind_assoc, bind_assoc]
      refine bind_eq_of rfl ?_
      rintro - ⟨a, line⟩ -
      show pure (a, Cursor.mk c.tokens (c.position + 1 + n + 1) line)
        = pure (a, Cursor.mk c.tokens (c.tokens.length - (d.unread.tokens.drop (n + 1)).length) line)
      rw [hposition]
  · rw [hcheck, pure_bind, if_neg (by simp), entry_markKinds, pure_bind, current_eq, pure_bind, ha]
    rfl

theorem accept?_eq {u : Unread} {t : Token} {rest : List Token} (h : u.tokens = t :: rest)
    (k : Kind) : u.accept? k = if t.kind = k then some (t, u.skip 1) else none := by
  unfold Unread.accept?
  rw [h]

theorem length_of_require {u v : Unread} {k : Kind} {file : String} {n : Nat} {t : Token}
    (h : (u.require file k).Yields n (t, v)) : v.tokens.length < u.tokens.length := by
  unfold Unread.require at h
  split at h
  · next taken ha =>
    obtain ⟨-, rfl⟩ := (Logged.yields_pure _ _ _).1 h
    rw [(Unread.eq_of_accept? ha).1, List.length_cons]
    exact Nat.lt_succ_self _
  · exact absurd h (Logged.not_yields_fault _ _ _ _ _)

theorem length_skipNewlines_le (u : Unread) :
    u.skipNewlines.tokens.length ≤ u.tokens.length := (List.dropWhile_sublist _).length_le

/-- A cursor behind all tokens is where a reading of all of them ends. -/
theorem ending_blank {α : Type} {c : Cursor} (hc : c.Inside) (h : c.unread.tokens = []) (a : α) :
    c.ending (⟨[], ·⟩) (pure (a, c.unread.line)) = pure (a, c) := by
  have hu : c.unread = ⟨[], c.unread.line⟩ := by rw [← h]
  rw [ending_pure, ← hu, hc.toUnread_unread]

theorem mirrors_lines {α : Type} {r : Inner} {look : Looker α} {read : Reader α}
    (hlook : look.Mirrors read) (hread : read.Located r.file)
    (htakes : ∀ {u v n a}, (read u).Yields n (a, v) → v.tokens.length < u.tokens.length)
    {c : Cursor} (hc : c.Inside) {rounds fuel : Nat} (hr : c.unread.tokens.length < rounds)
    (hf : c.unread.tokens.length ≤ fuel) :
    lines r.file look rounds c = c.ending (⟨[], ·⟩) (r.lines read fuel c.unread) := by
  induction rounds generalizing c fuel with
  | zero => exact absurd hr (Nat.not_lt_zero _)
  | succ rounds ih =>
    obtain ⟨d, hskip, hd, hu, hto⟩ := exists_skipNewlines hc
    have hle := length_skipNewlines_le c.unread
    unfold lines
    rw [hskip, pure_bind, atEnd_eq, ← ending_congr hto]
    by_cases hblank : c.unread.skipNewlines.tokens = []
    · rw [r.lines_of_blank read fuel hblank, ← hu, if_pos (by rw [hu, hblank]; rfl)]
      exact (ending_blank hd (by rw [hu, hblank]) _).symm
    · have hpos := List.length_pos_iff.2 hblank
      obtain ⟨fuel, rfl⟩ : ∃ m, fuel = m + 1 := ⟨fuel - 1, by omega⟩
      rw [r.lines_of_not_blank read fuel hblank, ← hu, if_neg (by rw [hu]; simpa using hblank)]
      refine andThen_eq hd (hlook hd) (hread _).result ?_
      intro n a e hy he
      have hlt := htakes hy
      rw [hu] at hlt
      exact endStatement_andThen_eq (passOn_eq (ih he (by omega) (by omega)) (a :: ·))

/-! ## Readers -/

/-- The readers by look-ups for what stands inside a statement of a file. -/
structure InnerLooker where
  file : String
  expression : ExprLooker
  type : Looker TypeRef
  statement : Looker Statement

namespace InnerLooker

section

variable (l : InnerLooker)

def value : Looker Expr := Lookup.value l.file l.expression

def readType : Looker TypeRef := fun c => do
  let (name, c) ← identifier l.file c
  if ← check c (.keyword .of) then
    let (_, c) ← advance c
    let (element, c) ← l.type c
    return (.of name element, c)
  else return (.plain name, c)

/-- Reads a type after a keyword, if the keyword is there. -/
def typeAfter (k : Keyword) : Looker (Option TypeRef) := fun c => do
  if ← check c (.keyword k) then
    let (_, c) ← advance c
    let (type, c) ← l.type c
    return (some type, c)
  else return (none, c)

/-- Reads the value after a keyword, if the keyword is there. -/
def valueAfter (k : Keyword) : Looker (Option Expr) := fun c => do
  if ← check c (.keyword k) then
    let (_, c) ← advance c
    let (e, c) ← l.value c
    return (some e, c)
  else return (none, c)

def statements : Looker (List Statement) := fun c =>
  lines l.file l.statement (c.tokens.length + 1) c

def block : Looker (List Statement) := fun c => do
  let c ← skipNewlines c
  within l.file (.mark (.opening .curly)) l.statements c

def parameter : Looker Parameter := fun c => do
  let (name, c) ← identifier l.file c
  let (_, c) ← require l.file (.keyword .as') c
  let (type, c) ← l.type c
  return (⟨name, type⟩, c)

/-- Reads parameters between commas up to the end of the tokens, in less rounds than the fuel. -/
def parametersFrom : Nat → Looker (List Parameter)
  | 0, _ => .fail (.miss .round)
  | fuel + 1, c => do
    let c ← skipNewlines c
    if c.atEnd then return ([], c)
    let (p, c) ← l.parameter c
    let c ← skipNewlines c
    if c.atEnd then return ([p], c)
    let (_, c) ← require l.file (.mark .comma) c
    let (ps, c) ← parametersFrom fuel c
    return (p :: ps, c)

def parameters : Looker (List Parameter) := fun c => l.parametersFrom (c.tokens.length + 1) c

/-- Takes a keyword if it is there, and says whether it was. -/
def modifier (k : Keyword) : Looker Bool := fun c => do
  if ← check c (.keyword k) then
    let (_, c) ← advance c
    return (true, c)
  else return (false, c)

def member : Looker Member := fun c => do
  let (isPrivate, c) ← modifier .private' c
  let (isStatic, c) ← modifier .static c
  let (name, c) ← identifier l.file c
  if ← check c (.keyword .as') then
    let (_, c) ← advance c
    let (type, c) ← l.type c
    let (initial, c) ← l.valueAfter .default c
    return (.property name type ⟨isPrivate, isStatic⟩ initial, c)
  else
    let (returns, c) ← l.typeAfter .return' c
    let (_, c) ← require l.file (.keyword .from') c
    let (parameters, c) ← within l.file (.mark (.opening .round)) l.parameters c
    let (body, c) ← l.block c
    return (.function name parameters body returns ⟨isPrivate, isStatic⟩, c)

def members : Looker (List Member) := fun c => lines l.file l.member (c.tokens.length + 1) c

def model : Looker Statement := fun c => do
  let (_, c) ← require l.file (.keyword .describe) c
  let (name, c) ← identifier l.file c
  let c ← skipNewlines c
  let (members, c) ← within l.file (.mark (.opening .curly)) l.members c
  return (.model name members, c)

def declaration : Looker Statement := fun c => do
  let (_, c) ← require l.file (.keyword .let') c
  let (name, c) ← identifier l.file c
  let (type, c) ← l.typeAfter .as' c
  let (_, c) ← require l.file (.keyword .be) c
  let (value, c) ← l.value c
  return (.declaration name value type, c)

/-- Reads an index, which takes all tokens. -/
def index : Looker Expr := fun c => do
  let c ← skipNewlines c
  if c.atEnd then Looking.fault l.file c.line .emptyIndex
  else
    let (e, _) ← l.expression c.line (c.tokens.drop c.position)
    let c ← advanceTo c c.tokens.length
    return (e, c)

/-- Reads an index in brackets, if an opening bracket is there. -/
def indexIfAny : Looker (Option Expr) := fun c => do
  if ← check c (.mark (.opening .square)) then
    let (e, c) ← within l.file (.mark (.opening .square)) l.index c
    return (some e, c)
  else return (none, c)

def change : Looker Statement := fun c => do
  let (_, c) ← require l.file (.keyword .make) c
  let (name, c) ← identifier l.file c
  let (index, c) ← l.indexIfAny c
  let (_, c) ← require l.file (.keyword .be) c
  let (value, c) ← l.value c
  return (.change name value index, c)

/-- Reads what follows the body of a conditional.  The keyword is looked for behind line breaks,
which are taken only if it is there. -/
def otherwise : Looker (Option (List Statement)) := fun c => do
  match ← indexOfFirstNot .newline c.tokens c.position with
  | none => return (none, c)
  | some i =>
    if (← item c.tokens i).kind ≠ .keyword .else' then return (none, c)
    let c ← skipNewlines c
    let (_, c) ← require l.file (.keyword .else') c
    if ← check c (.keyword .if') then
      let (s, c) ← l.statement c
      return (some [s], c)
    else
      let (body, c) ← l.block c
      return (some body, c)

def conditional : Looker Statement := fun c => do
  let (_, c) ← require l.file (.keyword .if') c
  let (condition, c) ← l.value c
  let (body, c) ← l.block c
  let (otherwise, c) ← l.otherwise c
  return (.conditional condition body otherwise, c)

def loop : Looker Statement := fun c => do
  let (_, c) ← require l.file (.keyword .while') c
  let (condition, c) ← l.value c
  let (body, c) ← l.block c
  return (.loop condition body, c)

/-- Reads the end of a function, with or without a value. -/
def result : Looker Statement := fun c => do
  let (_, c) ← require l.file (.keyword .return') c
  if c.atEnd then return (.result none, c)
  if ← check c .newline then return (.result none, c)
  let (value, c) ← l.value c
  return (.result (some value), c)

/-- Reads a statement, which its first token tells. -/
def readStatement : Looker Statement := fun c => do
  if ← check c (.keyword .describe) then l.model c
  else if ← check c (.keyword .let') then l.declaration c
  else if ← check c (.keyword .make) then l.change c
  else if ← check c (.keyword .if') then l.conditional c
  else if ← check c (.keyword .while') then l.loop c
  else if ← check c (.keyword .return') then l.result c
  else
    let (value, c) ← l.value c
    return (.bare value, c)

end

/-- The readers for text that is nested less than `depth` levels deep. -/
def atDepth (file : String) : Nat → InnerLooker
  | 0 => {
    file
    expression := fun _ _ => .fail (.stop .tooDeep)
    type := fun _ => .fail (.stop .tooDeep)
    statement := fun _ => .fail (.stop .tooDeep) }
  | depth + 1 =>
    let l := InnerLooker.atDepth file depth
    {
      file
      expression := parseStep file l.expression
      type := l.readType
      statement := l.readStatement }

/-! ## The same readers -/

/-- The readers by look-ups do what the other ones do. -/
structure Mirrors (l : InnerLooker) (r : Inner) : Prop where
  file : l.file = r.file
  located : r.Located
  expression : Lookup.Mirrors l.expression r.expression
  type : l.type.Mirrors r.type
  statement : l.statement.Mirrors r.statement

namespace Mirrors

variable {l : InnerLooker} {r : Inner}

theorem value (h : l.Mirrors r) : l.value.Mirrors r.value := value_eq h.file.symm h.expression

theorem readType (h : l.Mirrors r) : l.readType.Mirrors r.readType := by
  intro c hc
  unfold InnerLooker.readType Inner.readType
  rw [h.file]
  refine andThen_eq hc (identifier_eq hc _) (Unread.identifier_located _ _).result ?_
  rintro - name d - hd
  dsimp only
  rcases check_cases hd (.keyword .of) with ⟨t, e, hcheck, hadvance, he, hto, ha⟩ | ⟨hcheck, ha⟩
  · rw [ha, hcheck, pure_bind, if_pos rfl, hadvance, pure_bind, ← ending_congr hto]
    exact passOn_eq (h.type he) _
  · rw [ha, hcheck, pure_bind, if_neg (by simp)]
    exact (ending_self hd _).symm

theorem typeAfter (h : l.Mirrors r) (k : Keyword) :
    (l.typeAfter k).Mirrors (r.typeAfter k) := by
  intro c hc
  unfold InnerLooker.typeAfter Inner.typeAfter
  rcases check_cases hc (.keyword k) with ⟨t, d, hcheck, hadvance, hd, hto, ha⟩ | ⟨hcheck, ha⟩
  · rw [ha, hcheck, pure_bind, if_pos rfl, hadvance, pure_bind, ← ending_congr hto]
    exact passOn_eq (h.type hd) _
  · rw [ha, hcheck, pure_bind, if_neg (by simp)]
    exact (ending_self hc _).symm

theorem valueAfter (h : l.Mirrors r) (k : Keyword) :
    (l.valueAfter k).Mirrors (r.valueAfter k) := by
  intro c hc
  unfold InnerLooker.valueAfter Inner.valueAfter
  rcases check_cases hc (.keyword k) with ⟨t, d, hcheck, hadvance, hd, hto, ha⟩ | ⟨hcheck, ha⟩
  · rw [ha, hcheck, pure_bind, if_pos rfl, hadvance, pure_bind, ← ending_congr hto]
    exact passOn_eq (h.value hd) _
  · rw [ha, hcheck, pure_bind, if_neg (by simp)]
    exact (ending_self hc _).symm

theorem statements (h : l.Mirrors r) : l.statements.MirrorsWhole r.statements := by
  intro c hc
  have hlen := hc.length_unread
  unfold InnerLooker.statements
  rw [h.file]
  exact mirrors_lines h.statement h.located.statement (fun hy => (h.located.keeps.statement hy).2)
    hc (by omega) (Nat.le_refl _)

theorem block (h : l.Mirrors r) : l.block.Mirrors r.block := by
  intro c hc
  obtain ⟨d, hskip, hd, hu, hto⟩ := exists_skipNewlines hc
  unfold InnerLooker.block Inner.block
  rw [h.file, hskip, pure_bind, ← hu, ← ending_congr hto]
  exact mirrors_within .curly h.statements hd

theorem parameter (h : l.Mirrors r) : l.parameter.Mirrors r.parameter := by
  intro c hc
  unfold InnerLooker.parameter
  rw [h.file]
  refine andThen_eq hc (identifier_eq hc _) (Unread.identifier_located _ _).result ?_
  rintro - name d - hd
  refine word_andThen_eq hd _ fun t e he => ?_
  exact passOn_eq (h.type he) _

theorem parametersFrom (h : l.Mirrors r) {c : Cursor} (hc : c.Inside) {rounds fuel : Nat}
    (hr : c.unread.tokens.length < rounds) (hf : c.unread.tokens.length ≤ fuel) :
    l.parametersFrom rounds c = c.ending (⟨[], ·⟩) (r.parametersFrom fuel c.unread) := by
  induction rounds generalizing c fuel with
  | zero => exact absurd hr (Nat.not_lt_zero _)
  | succ rounds ih =>
    obtain ⟨d, hskip, hd, hu, hto⟩ := exists_skipNewlines hc
    have hle := length_skipNewlines_le c.unread
    unfold InnerLooker.parametersFrom
    rw [hskip, pure_bind, atEnd_eq, ← ending_congr hto]
    by_cases hblank : c.unread.skipNewlines.tokens = []
    · rw [r.parametersFrom_of_blank fuel hblank, ← hu, if_pos (by rw [hu, hblank]; rfl)]
      exact (ending_blank hd (by rw [hu, hblank]) _).symm
    · have hpos := List.length_pos_iff.2 hblank
      obtain ⟨fuel, rfl⟩ : ∃ m, fuel = m + 1 := ⟨fuel - 1, by omega⟩
      rw [r.parametersFrom_of_not_blank fuel hblank, ← hu, if_neg (by rw [hu]; simpa using hblank)]
      refine andThen_eq hd (h.parameter hd) (h.located.parameter _).result ?_
      intro n p e hy he
      have hlt := (h.located.keeps.parameter hy).2
      have hle' := length_skipNewlines_le e.unread
      rw [hu] at hlt
      obtain ⟨e', hskip', he', hu', hto'⟩ := exists_skipNewlines he
      dsimp only
      rw [hskip', pure_bind, atEnd_eq, ← ending_congr hto', ← hu']
      rw [← hu'] at hle'
      split
      · next hend => exact (ending_blank he' (List.isEmpty_iff.1 hend) _).symm
      · rw [h.file]
        refine andThen_eq he' (require_eq he' _ _) (Unread.require_located _ _ _).result ?_
        intro m t f hy' hf'
        have hlt' := length_of_require hy'
        exact passOn_eq (ih hf' (by omega) (by omega)) (p :: ·)

theorem parameters (h : l.Mirrors r) : l.parameters.MirrorsWhole r.parameters := by
  intro c hc
  have hlen := hc.length_unread
  exact h.parametersFrom hc (by omega) (Nat.le_refl _)

theorem exists_modifier {c : Cursor} (hc : c.Inside) (k : Keyword) :
    ∃ b, ∃ d : Cursor, modifier k c = pure (b, d) ∧ d.Inside ∧ d.toUnread = c.toUnread ∧
      Inner.modifier k c.unread = (b, d.unread) := by
  unfold modifier Inner.modifier
  rcases check_cases hc (.keyword k) with ⟨t, d, hcheck, hadvance, hd, hto, ha⟩ | ⟨hcheck, ha⟩
  · refine ⟨true, d, ?_, hd, hto, by rw [ha]⟩
    rw [hcheck, pure_bind, if_pos rfl, hadvance, pure_bind]
  · refine ⟨false, c, ?_, hc, rfl, by rw [ha]⟩
    rw [hcheck, pure_bind, if_neg (by simp)]

theorem member (h : l.Mirrors r) : l.member.Mirrors r.member := by
  intro c hc
  obtain ⟨isPrivate, d, hprivate, hd, hdto, hd'⟩ := exists_modifier hc .private'
  obtain ⟨isStatic, e, hstatic, he, heto, he'⟩ := exists_modifier hd .static
  unfold InnerLooker.member Inner.member
  rw [h.file, hprivate, pure_bind, hd']
  dsimp only
  rw [hstatic, pure_bind, he', ← ending_congr hdto, ← ending_congr heto]
  dsimp only
  refine andThen_eq he (identifier_eq he _) (Unread.identifier_located _ _).result ?_
  rintro - name s - hs
  dsimp only
  rcases check_cases hs (.keyword .as') with ⟨t, i, hcheck, hadvance, hi, hto, ha⟩ | ⟨hcheck, ha⟩
  · rw [ha, hcheck, pure_bind, if_pos rfl, hadvance, pure_bind, ← ending_congr hto]
    refine andThen_eq hi (h.type hi) (h.located.type _).result ?_
    rintro - type j - hj
    exact passOn_eq (h.valueAfter .default hj) _
  · rw [ha, hcheck, pure_bind, if_neg (by simp)]
    refine andThen_eq hs (h.typeAfter .return' hs) (h.located.typeAfter _ _).result ?_
    rintro - returns i - hi
    refine word_andThen_eq hi _ fun t j hj => ?_
    refine andThen_eq hj (mirrors_within .round h.parameters hj)
      (Inner.within_located .round h.located.parameters _).result ?_
    rintro - parameters m - hm
    exact passOn_eq (h.block hm) fun body =>
      Member.function name parameters body returns ⟨isPrivate, isStatic⟩

theorem members (h : l.Mirrors r) : l.members.MirrorsWhole r.members := by
  intro c hc
  have hlen := hc.length_unread
  unfold InnerLooker.members
  rw [h.file]
  exact mirrors_lines h.member h.located.member (fun hy => (h.located.keeps.member hy).2)
    hc (by omega) (Nat.le_refl _)

theorem model (h : l.Mirrors r) : l.model.Mirrors r.model := by
  intro c hc
  unfold InnerLooker.model
  rw [h.file]
  refine word_andThen_eq hc _ fun t d hd => ?_
  refine andThen_eq hd (identifier_eq hd _) (Unread.identifier_located _ _).result ?_
  rintro - name e - he
  obtain ⟨s, hskip, hs, hu, hto⟩ := exists_skipNewlines he
  dsimp only
  rw [hskip, pure_bind, ← hu, ← ending_congr hto]
  exact passOn_eq (mirrors_within .curly h.members hs) _

theorem declaration (h : l.Mirrors r) : l.declaration.Mirrors r.declaration := by
  intro c hc
  unfold InnerLooker.declaration
  rw [h.file]
  refine word_andThen_eq hc _ fun t d hd => ?_
  refine andThen_eq hd (identifier_eq hd _) (Unread.identifier_located _ _).result ?_
  rintro - name e - he
  refine andThen_eq he (h.typeAfter .as' he) (h.located.typeAfter _ _).result ?_
  rintro - type s - hs
  refine word_andThen_eq hs _ fun t i hi => ?_
  exact passOn_eq (h.value hi) fun value => Statement.declaration name value type

theorem index (h : l.Mirrors r) : l.index.MirrorsWhole r.index := by
  intro c hc
  obtain ⟨d, hskip, hd, hu, hto⟩ := exists_skipNewlines hc
  have hlen := hd.length_unread
  unfold InnerLooker.index Inner.index
  dsimp only
  rw [h.file, hskip, pure_bind, ← hu, ← ending_congr hto, atEnd_eq]
  split
  · rfl
  · unfold Cursor.ending
    rw [bind_assoc]
    refine bind_eq_of (h.expression _ _) ?_
    rintro - ⟨e, reached⟩ -
    dsimp only
    have hcount : d.tokens.length - d.position = d.unread.tokens.length := by omega
    rw [advanceTo_eq hd (Nat.le_refl _), pure_bind, hcount]
    unfold Unread.skip
    rw [List.drop_length]
    rfl

theorem indexIfAny (h : l.Mirrors r) : l.indexIfAny.Mirrors r.indexIfAny := by
  intro c hc
  unfold InnerLooker.indexIfAny Inner.indexIfAny
  rw [h.file, check_eq, pure_bind]
  split
  · exact passOn_eq (mirrors_within .square h.index hc) _
  · exact (ending_self hc _).symm

theorem change (h : l.Mirrors r) : l.change.Mirrors r.change := by
  intro c hc
  unfold InnerLooker.change
  rw [h.file]
  refine word_andThen_eq hc _ fun t d hd => ?_
  refine andThen_eq hd (identifier_eq hd _) (Unread.identifier_located _ _).result ?_
  rintro - name e - he
  refine andThen_eq he (h.indexIfAny he) (h.located.indexIfAny _).result ?_
  rintro - index s - hs
  refine word_andThen_eq hs _ fun t i hi => ?_
  exact passOn_eq (h.value hi) fun value => Statement.change name value index

theorem otherwise (h : l.Mirrors r) : l.otherwise.Mirrors r.otherwise := by
  intro c hc
  unfold InnerLooker.otherwise Inner.otherwise
  rw [indexOfFirstNot_eq, firstNot?_newline, pure_bind]
  have hskipped : c.unread.skipNewlines.tokens = Token.trimStart (c.tokens.drop c.position) := rfl
  cases htrim : Token.trimStart (c.tokens.drop c.position) with
  | nil =>
    rw [htrim] at hskipped
    unfold Unread.accept?
    rw [hskipped]
    exact (ending_self hc _).symm
  | cons t rest =>
    rw [htrim] at hskipped
    rw [if_neg (by simp)]
    dsimp only
    rw [item_of_trimStart htrim, pure_bind]
    by_cases hk : t.kind = .keyword .else'
    · obtain ⟨d, hskip, hd, hu, hto⟩ := exists_skipNewlines hc
      rw [if_neg (not_not_intro hk), hskip, pure_bind, h.file, ← hu, ← ending_congr hto]
      rw [← hu] at hskipped
      rcases check_cases hd (.keyword .else') with
        ⟨t', e, hcheck, hadvance, he, hto', ha⟩ | ⟨-, ha⟩
      · unfold require
        rw [hcheck, pure_bind, if_pos rfl, hadvance, pure_bind, ha, ← ending_congr hto']
        dsimp only
        rw [check_eq, pure_bind]
        split
        · exact passOn_eq (h.statement he) fun s => some [s]
        · exact passOn_eq (h.block he) some
      · rw [accept?_eq hskipped, if_pos hk] at ha
        cases ha
    · rw [if_pos hk, accept?_eq hskipped, if_neg hk]
      exact (ending_self hc _).symm

theorem conditional (h : l.Mirrors r) : l.conditional.Mirrors r.conditional := by
  intro c hc
  unfold InnerLooker.conditional
  rw [h.file]
  refine word_andThen_eq hc _ fun t d hd => ?_
  refine andThen_eq hd (h.value hd) (h.located.value _).result ?_
  rintro - condition e - he
  refine andThen_eq he (h.block he) (h.located.block _).result ?_
  rintro - body s - hs
  exact passOn_eq (h.otherwise hs) _

theorem loop (h : l.Mirrors r) : l.loop.Mirrors r.loop := by
  intro c hc
  unfold InnerLooker.loop
  rw [h.file]
  refine word_andThen_eq hc _ fun t d hd => ?_
  refine andThen_eq hd (h.value hd) (h.located.value _).result ?_
  rintro - condition e - he
  exact passOn_eq (h.block he) _

theorem result (h : l.Mirrors r) : l.result.Mirrors r.result := by
  intro c hc
  unfold InnerLooker.result
  rw [h.file]
  refine word_andThen_eq hc _ fun t d hd => ?_
  dsimp only
  rw [atEnd_eq, check_eq, pure_bind]
  unfold Unread.startsWith Unread.kind?
  cases hu : d.unread.tokens with
  | nil => exact (ending_self hd _).symm
  | cons t' rest =>
    cases t' with
    | newline => exact (ending_self hd _).symm
    | _ => exact passOn_eq (h.value hd) fun value => Statement.result (some value)

theorem readStatement (h : l.Mirrors r) : l.readStatement.Mirrors r.readStatement := by
  intro c hc
  unfold InnerLooker.readStatement Inner.readStatement
  simp only [check_eq, pure_bind]
  unfold Unread.startsWith Unread.kind?
  have hvalue := passOn_eq (h.value hc) Statement.bare
  cases hu : c.unread.tokens with
  | nil => exact hvalue
  | cons t rest =>
    cases t with
    | keyword k =>
      cases k with
      | describe => exact h.model hc
      | let' => exact h.declaration hc
      | make => exact h.change hc
      | if' => exact h.conditional hc
      | while' => exact h.loop hc
      | return' => exact h.result hc
      | _ => exact hvalue
    | _ => exact hvalue

end Mirrors

/-! ## Levels -/

/-- At every level, the readers by look-ups do what the other ones do. -/
theorem mirrors_atDepth (file : String) (depth : Nat) :
    (InnerLooker.atDepth file depth).Mirrors (Inner.atDepth file depth) := by
  have hlocated := Inner.located_atDepth file
  induction depth with
  | zero => exact ⟨rfl, hlocated 0, fun _ _ => rfl, fun _ => rfl, fun _ => rfl⟩
  | succ depth ih =>
    exact ⟨rfl, hlocated _, mirrors_parseStep ih.expression, ih.readType, ih.readStatement⟩

/-- A reader of all tokens that takes them one by one leaves nothing: it ends behind the last token,
where `Cursor.runWhole` puts the cursor at once. -/
theorem eq_runWhole (file : String) (depth : Nat) {c : Cursor} (hc : c.Inside) :
    let l := InnerLooker.atDepth file depth
    let r := Inner.atDepth file depth
    l.statements c = Looking.of (c.runWhole r.statements) ∧
      l.members c = Looking.of (c.runWhole r.members) ∧
      l.parameters c = Looking.of (c.runWhole r.parameters) ∧
      l.index c = Looking.of (c.runWhole r.index) := by
  have h := mirrors_atDepth file depth
  exact ⟨h.statements hc, h.members hc, h.parameters hc, h.index hc⟩

end InnerLooker

end ModelScript.Lookup
