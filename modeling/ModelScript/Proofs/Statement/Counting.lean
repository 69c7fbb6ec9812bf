import ModelScript.Proofs.Statement.Location
import ModelScript.Statement.Cursor

/-!
# Counting line breaks while a file is read

A file can be read step by step, by calls in any order that each move a cursor.  Whatever has been
called, the cursor's line counts the line breaks in front of its position: `Cursor.Counted` holds
at the start, one call that succeeds keeps it and never moves the cursor back
(`Call.follows_run`), and so a run of calls keeps it (`Counted.runAll`).  The two are proved together,
since what a scope holds may itself be read by a run of calls.
-/

namespace ModelScript.Cursor

/-! ## Calls -/

/-- What reads all that a scope holds. -/
inductive Body where
  | statements
  | members
  | parameters
  | index

/-- What a cursor can be told to do. -/
inductive Call where
  | advance
  | advanceTo (index : Nat)
  | skipNewlines
  | require (k : Kind)
  | identifier
  | requireEnd
  | valueEnd (start : Nat)
  | continuesAfter (start newline : Nat)
  | parse
  | statements
  | statement
  | value
  | scope (b : Bracket) (body : Body)
  /-- A scope whose tokens are read by calls that leave no line break of them behind. -/
  | scopeBy (b : Bracket) (body : List Call)
  | block
  | type
  | model
  | members
  | member
  | parameters
  | declaration
  | change
  | index
  | conditional
  | loop
  | result

/-- Where a reader leaves the cursor, if it succeeds. -/
def after? {α : Type} (x : Reading (α × Cursor)) : Option Cursor :=
  match x.outcome with
  | .ok (_, c) => some c
  | .error _ => none

/-- Where a scope with a body leaves the cursor, if it is read. -/
def Body.run (r : Inner) (b : Bracket) (c : Cursor) : Body → Option Cursor
  | statements => after? (c.run (r.within b r.statements))
  | members => after? (c.run (r.within b r.members))
  | parameters => after? (c.run (r.within b r.parameters))
  | index => after? (c.run (r.within b r.index))

/-- Reads the tokens of a scope with a cursor of their own, up to the line that it is left in.  It may
leave tokens behind, but no line break. -/
def readBy (run : Cursor → Option Cursor) : WholeReader Unit := fun u =>
  match run (.start u.tokens u.line) with
  | some d => if Token.newlines d.unread.tokens = 0 then return ((), d.line) else .fail .tooDeep
  | none => .fail .tooDeep

mutual

/-- Where a call leaves the cursor, if it succeeds. -/
def Call.run (file : String) (depth : Nat) (c : Cursor) : Call → Option Cursor
  | .advance => (·.2) <$> c.advance?
  | .advanceTo i => c.advanceTo? i
  | .skipNewlines => some c.skipNewlines
  | .require k => after? (c.run (Unread.require file k))
  | .identifier => after? (c.run (Unread.identifier file))
  | .requireEnd => after? (c.run fun u => do
      u.requireEnd file
      return ((), u))
  | .valueEnd _ => some c
  | .continuesAfter _ _ => some c
  | .parse => after? (c.runWhole (parseWithin depth file))
  | .statements => after? (c.runWhole (Inner.atDepth file depth).statements)
  | .statement => after? (c.run (Inner.atDepth file depth).readStatement)
  | .value => after? (c.run (Inner.atDepth file depth).value)
  | .scope b body => body.run (Inner.atDepth file depth) b c
  | .scopeBy b body =>
    after? (c.run ((Inner.atDepth file depth).within b (readBy (runAll file depth body))))
  | .block => after? (c.run (Inner.atDepth file depth).block)
  | .type => after? (c.run (Inner.atDepth file depth).readType)
  | .model => after? (c.run (Inner.atDepth file depth).model)
  | .members => after? (c.runWhole (Inner.atDepth file depth).members)
  | .member => after? (c.run (Inner.atDepth file depth).member)
  | .parameters => after? (c.runWhole (Inner.atDepth file depth).parameters)
  | .declaration => after? (c.run (Inner.atDepth file depth).declaration)
  | .change => after? (c.run (Inner.atDepth file depth).change)
  | .index => after? (c.runWhole (Inner.atDepth file depth).index)
  | .conditional => after? (c.run (Inner.atDepth file depth).conditional)
  | .loop => after? (c.run (Inner.atDepth file depth).loop)
  | .result => after? (c.run (Inner.atDepth file depth).result)

/-- Where calls one after the other leave the cursor, if all of them succeed. -/
def runAll (file : String) (depth : Nat) : List Call → Cursor → Option Cursor
  | [], c => some c
  | call :: calls, c => do
    let d ← call.run file depth c
    runAll file depth calls d

end

/-! ## One call -/

/-- The line at the cursor counts the line breaks in front of it, from the line `first` on. -/
structure Counted (tokens : List Token) (first : Nat) (c : Cursor) : Prop where
  same : c.tokens = tokens
  inside : c.position ≤ tokens.length
  line : c.line = first + Token.newlines (tokens.take c.position)

/-- The cursor has moved on, or stayed, and the line at it counts the line breaks. -/
def Follows (tokens : List Token) (first : Nat) (c d : Cursor) : Prop :=
  Counted tokens first d ∧ c.position ≤ d.position

variable {tokens : List Token} {first : Nat} {c d : Cursor} {file : String} {α : Type}

theorem counted_start (tokens : List Token) (first : Nat) :
    Counted tokens first (.start tokens first) :=
  ⟨rfl, Nat.zero_le _, rfl⟩

theorem Counted.follows_self (hc : Counted tokens first c) : Follows tokens first c c :=
  ⟨hc, Nat.le_refl _⟩

/-- A cursor that moves to a later place of the unread tokens counts the line breaks up to it. -/
theorem Counted.follows (hc : Counted tokens first c) {u : Unread} (hu : c.unread.Reaches u) :
    Follows tokens first c (c.toUnread u) := by
  obtain ⟨before, he, hline⟩ := hu
  have hdrop : tokens.drop c.position = before ++ u.tokens := by
    rw [← hc.same]
    exact he
  have hlen := congrArg List.length hdrop
  rw [List.length_drop, List.length_append] at hlen
  have hposition := hc.inside
  have hplace : (c.toUnread u).position = c.position + before.length := by
    show c.tokens.length - u.tokens.length = _
    rw [hc.same]
    omega
  have htake : tokens.take (c.position + before.length) = tokens.take c.position ++ before := by
    rw [List.take_add, hdrop, List.take_left]
  refine ⟨⟨hc.same, by omega, ?_⟩, by omega⟩
  rw [hplace, htake, Token.newlines_append, ← Nat.add_assoc, ← hc.line]
  exact hline

theorem reaches_end (u : Unread) : u.Reaches ⟨[], u.line + Token.newlines u.tokens⟩ :=
  ⟨u.tokens, by rw [List.append_nil], rfl⟩

theorem exists_of_after? {x : Reading (α × Cursor)} (h : after? x = some d) :
    ∃ n a, x.Yields n (a, d) := by
  unfold after? at h
  split at h
  · next a c hx =>
    cases h
    exact ⟨_, a, hx, rfl⟩
  · cases h

theorem Counted.follows_run (hc : Counted tokens first c) {read : Reader α}
    (hread : ∀ {u n a v}, (read u).Yields n (a, v) → u.Reaches v)
    (h : after? (c.run read) = some d) : Follows tokens first c d := by
  obtain ⟨n, a, hy⟩ := exists_of_after? h
  obtain ⟨m, k, ⟨a', u⟩, ha, h1, -⟩ := (Logged.yields_bind _ _ _ _).1 hy
  obtain ⟨-, -, rfl⟩ := (Logged.yields_pure_pair _ _ _ _ _).1 h1
  exact hc.follows (hread ha)

theorem Counted.follows_runWhole (hc : Counted tokens first c) {read : WholeReader α}
    (hread : read.Located file) (h : after? (c.runWhole read) = some d) :
    Follows tokens first c d ∧ d.position = tokens.length := by
  obtain ⟨n, a, hy⟩ := exists_of_after? h
  obtain ⟨m, k, ⟨a', line⟩, ha, h1, -⟩ := (Logged.yields_bind _ _ _ _).1 hy
  obtain ⟨-, -, rfl⟩ := (Logged.yields_pure_pair _ _ _ _ _).1 h1
  obtain rfl := (hread c.unread).result ha
  refine ⟨hc.follows (reaches_end c.unread), ?_⟩
  show c.tokens.length - 0 = _
  rw [hc.same, Nat.sub_zero]

theorem Counted.follows_body (hc : Counted tokens first c) {r : Inner} (hr : r.Located)
    (b : Bracket) {body : Body} (h : body.run r b c = some d) : Follows tokens first c d := by
  cases body with
  | statements => exact hc.follows_run (Inner.within_located b hr.statements _).result h
  | members => exact hc.follows_run (Inner.within_located b hr.members _).result h
  | parameters => exact hc.follows_run (Inner.within_located b hr.parameters _).result h
  | index => exact hc.follows_run (Inner.within_located b hr.index _).result h

/-- Whatever reads what a scope holds, the cursor ends behind the scope, and its line counts the line
breaks there if and only if those in the scope have been counted. -/
theorem Counted.scope_iff (hc : Counted tokens first c) {r : Inner} (b : Bracket)
    (body : WholeReader α) (h : after? (c.run (r.within b body)) = some d) :
    ∃ inner tail, c.unread.tokens = Token.enclose b inner ++ tail ∧ d.unread.tokens = tail ∧
      (Counted tokens first d ↔ d.line = c.line + Token.newlines inner) := by
  obtain ⟨n, a, hy⟩ := exists_of_after? h
  obtain ⟨m, k, ⟨a', u⟩, ha, h1, -⟩ := (Logged.yields_bind _ _ _ _).1 hy
  obtain ⟨-, -, rfl⟩ := (Logged.yields_pure_pair _ _ _ _ _).1 h1
  rcases Inner.within_eq_or (r := r) b body c.unread with ⟨inner, tail, hu, -, he⟩ | ⟨p, -, he⟩
  · rw [he] at ha
    obtain ⟨m, k, ⟨a', line⟩, -, h1, -⟩ := (Logged.yields_bind _ _ _ _).1 ha
    obtain ⟨-, -, rfl⟩ := (Logged.yields_pure_pair _ _ _ _ _).1 h1
    -- in the line that counts the line breaks of the scope the cursor would be counted
    obtain ⟨hcounted, -⟩ := hc.follows (Inner.reaches_behind_scope hu rfl)
    refine ⟨inner, tail, hu, ?_, fun hd => ?_, fun hline => ?_⟩
    · have hdrop : c.tokens.drop c.position = Token.enclose b inner ++ tail := hu
      show c.tokens.drop (c.tokens.length - tail.length) = tail
      have hsuffix := (List.suffix_append (Token.enclose b inner) tail).trans
        (hdrop ▸ List.drop_suffix c.position c.tokens)
      exact (List.suffix_iff_eq_drop.1 hsuffix).symm
    · exact hd.line.trans hcounted.line.symm
    · exact ⟨hcounted.same, hcounted.inside, hline.trans hcounted.line⟩
  · rw [he] at ha
    exact absurd ha (Logged.not_yields_fault _ _ _ _ _)

theorem readBy_located {run : Cursor → Option Cursor}
    (h : ∀ {ts line d}, run (.start ts line) = some d → Counted ts line d) :
    (readBy run).Located file := by
  intro u
  unfold readBy
  split
  · next d hd =>
    split
    · next hrest =>
      have hcounted := h hd
      have htokens := congrArg Token.newlines (List.take_append_drop d.position u.tokens)
      rw [Token.newlines_append] at htokens
      have hunread : Token.newlines (u.tokens.drop d.position) = 0 := by
        rw [← hcounted.same]
        exact hrest
      refine .pure ?_
      show d.line = _
      rw [hcounted.line]
      omega
    · exact .tooDeep
  · exact .tooDeep

mutual

/-- A call that succeeds does not move the cursor back, and counts the line breaks that it takes. -/
theorem Call.follows_run {tokens : List Token} {first : Nat} {c d : Cursor} {file : String}
    (hc : Counted tokens first c) {depth : Nat} {call : Call}
    (h : call.run file depth c = some d) : Follows tokens first c d := by
  have hr := Inner.located_atDepth file depth
  cases call with
  | advance =>
    obtain ⟨⟨t, e⟩, ha, rfl⟩ := Option.map_eq_some_iff.1 h
    obtain ⟨t', -, he⟩ := Option.map_eq_some_iff.1 ha
    cases he
    exact hc.follows (Unread.reaches_skip _ 1)
  | advanceTo i =>
    simp only [Call.run, advanceTo?] at h
    split at h
    · cases h
      exact hc.follows_self
    · split at h
      · cases h
      · cases h
        exact hc.follows (Unread.reaches_skip _ _)
  | skipNewlines =>
    cases h
    exact hc.follows (Unread.reaches_skipNewlines _)
  | require k => exact hc.follows_run (Unread.require_located file k _).result h
  | identifier => exact hc.follows_run (Unread.identifier_located file _).result h
  | requireEnd =>
    refine hc.follows_run ?_ h
    intro u n a v hy
    obtain ⟨m, k, _, -, h1, -⟩ := (Logged.yields_bind _ _ _ _).1 hy
    obtain ⟨-, -, rfl⟩ := (Logged.yields_pure_pair _ _ _ _ _).1 h1
    exact .refl _
  | valueEnd start =>
    cases h
    exact hc.follows_self
  | continuesAfter start newline =>
    cases h
    exact hc.follows_self
  | parse => exact (hc.follows_runWhole (parseWithin_located depth file) h).1
  | statements => exact (hc.follows_runWhole hr.statements h).1
  | statement => exact hc.follows_run (hr.readStatement _).result h
  | value => exact hc.follows_run (hr.value _).result h
  | scope b body => exact hc.follows_body hr b h
  | scopeBy b body =>
    have hbody : (readBy (Cursor.runAll file depth body)).Located
        (Inner.atDepth file depth).file :=
      readBy_located fun h => Counted.runAll (counted_start _ _) h
    exact hc.follows_run (Inner.within_located b hbody _).result h
  | block => exact hc.follows_run (hr.block _).result h
  | type => exact hc.follows_run (hr.readType _).result h
  | model => exact hc.follows_run (hr.model _).result h
  | members => exact (hc.follows_runWhole hr.members h).1
  | member => exact hc.follows_run (hr.member _).result h
  | parameters => exact (hc.follows_runWhole hr.parameters h).1
  | declaration => exact hc.follows_run (hr.declaration _).result h
  | change => exact hc.follows_run (hr.change _).result h
  | index => exact (hc.follows_runWhole hr.index h).1
  | conditional => exact hc.follows_run (hr.conditional _).result h
  | loop => exact hc.follows_run (hr.loop _).result h
  | result => exact hc.follows_run (hr.result _).result h

/-- Whatever calls have succeeded, the line at the cursor counts the line breaks. -/
theorem Counted.runAll {tokens : List Token} {first : Nat} {c d : Cursor} {file : String}
    (hc : Counted tokens first c) {depth : Nat} {calls : List Call}
    (h : Cursor.runAll file depth calls c = some d) : Counted tokens first d := by
  cases calls with
  | nil =>
    cases h
    exact hc
  | cons call calls =>
    obtain ⟨e, he, h1⟩ := Option.bind_eq_some_iff.1 h
    exact Counted.runAll (Call.follows_run hc he).1 h1

end

/-! ## Runs of calls -/

end ModelScript.Cursor
