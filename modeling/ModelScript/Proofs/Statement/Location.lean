import ModelScript.Proofs.Expression.Location
import ModelScript.Proofs.Statement.Ledger

/-!
# Where a file goes wrong

Every reader of statements goes on at a later place of the same tokens, in the line that the line
breaks up to there lead to, and a reader of a whole body ends in the line behind its last token: no
line break is passed over uncounted, and none is counted twice, in a body as little as around it.
So whatever stops a reader, stops it at a place among the tokens (`fault_at_token`).
-/

namespace ModelScript

open Token (enclose)
open Logged (Located Meets)

/-! ## Readers -/

/-- The reader goes on at a later place, and its faults lie where it reads. -/
def Reader.Located {α : Type} (file : String) (p : Reader α) : Prop :=
  ∀ u, Logged.Located file u (fun a => u.Reaches a.2) (p u)

/-- The reader ends in the line behind the last token, and its faults lie where it reads. -/
def WholeReader.Located {α : Type} (file : String) (p : WholeReader α) : Prop :=
  ∀ u, Logged.Located file u (fun a => a.2 = u.line + Token.newlines u.tokens) (p u)

/-- A reader that takes a token at least goes on with fewer tokens. -/
theorem Reader.Located.taking {α : Type} {file : String} {p : Reader α} (hp : p.Located file)
    (htakes : ∀ {u v n a}, (p u).Yields n (a, v) → v.tokens.length < u.tokens.length) (u : Unread) :
    Logged.Located file u (fun a => u.Reaches a.2 ∧ a.2.tokens.length < u.tokens.length) (p u) :=
  ⟨fun h => ⟨(hp u).result h, htakes h⟩, (hp u).fault, (hp u).list⟩

namespace Logged.Located

variable {α β : Type} {file : String} {u v : Unread} {x : Reading α}

/-- What is read from a later place goes on at a place later still. -/
theorem later {y : Reading (β × Unread)} (h : u.Reaches v)
    (hy : Located file v (fun b => v.Reaches b.2) y) :
    Located file u (fun b => u.Reaches b.2) y :=
  (hy.within h.holds).mono (fun _ => id) fun _ hb => h.trans hb

/-- What is read to the end from a later place ends in the same line. -/
theorem last {y : Reading (β × Nat)} (h : u.Reaches v)
    (hy : Located file v (fun b => b.2 = v.line + Token.newlines v.tokens) y) :
    Located file u (fun b => b.2 = u.line + Token.newlines u.tokens) y :=
  (hy.within h.holds).mono (fun _ => id) fun _ hb => hb.trans h.last_eq

theorem andThen {x : Reading (α × Unread)} {g : α × Unread → Reading (β × Unread)}
    (h : Located file u (fun a => u.Reaches a.2) x)
    (hg : ∀ a v, Located file v (fun b => v.Reaches b.2) (g (a, v))) :
    Located file u (fun b => u.Reaches b.2) (x >>= g) :=
  h.bind fun a ha => later ha (hg a.1 a.2)

end Logged.Located

/-! ## Tokens -/

namespace Unread

variable {file : String}

theorem reaches_of_accept? {k : Kind} {t : Token} {u v : Unread} (h : u.accept? k = some (t, v)) :
    u.Reaches v := by
  unfold accept? at h
  split at h
  · split at h
    · cases h
      exact reaches_skip u 1
    · cases h
  · cases h

/-- Tokens that are all line breaks end in the line that they lead to. -/
theorem line_skipNewlines_of_blank {u : Unread} (h : u.skipNewlines.tokens = []) :
    u.skipNewlines.line = u.line + Token.newlines u.tokens := by
  rw [← (reaches_skipNewlines u).last_eq, h]
  rfl

theorem require_located (file : String) (k : Kind) : Reader.Located file (require file k) := by
  intro u
  unfold require
  split
  · next taken h => exact .pure (reaches_of_accept? h)
  · exact .stop ⟨fun t h => h, by simp⟩

theorem word_located (k : Keyword) (u : Unread) :
    Located file u (fun v => u.Reaches v) (u.word file k) :=
  (require_located file (.keyword k) u).map fun _ h => h

theorem word_andThen {β : Type} (k : Keyword) (u : Unread) {g : Unread → Reading (β × Unread)}
    (hg : ∀ v, Located file v (fun b => v.Reaches b.2) (g v)) :
    Located file u (fun b => u.Reaches b.2) (u.word file k >>= g) :=
  (word_located k u).bind fun v hv => Logged.Located.later hv (hg v)

theorem identifier_located (file : String) : Reader.Located file (identifier file) := by
  intro u
  unfold identifier
  split
  · exact .pure (reaches_skip u 1)
  · exact .stop ⟨fun t h => h, by simp⟩

theorem requireEnd_located (u : Unread) : Located file u (fun _ => True) (u.requireEnd file) := by
  unfold requireEnd
  split
  · exact .pure trivial
  · exact .pure trivial
  · next t ts hu =>
    refine .stop ⟨?_, by simp⟩
    rintro _ ⟨⟩
    rw [hu]
    rfl

end Unread

namespace Inner

variable {r : Inner}

/-- What is known of the readers for what stands inside: they are located, and they take tokens. -/
structure Located (r : Inner) : Prop where
  expression : ∀ (line : Nat) (ts : List Token),
    Logged.Located r.file ⟨ts, line⟩ (fun _ => True) (r.expression line ts)
  type : r.type.Located r.file
  statement : r.statement.Located r.file
  keeps : r.Keeps

/-! ## Values, types and scopes -/

theorem Located.value (hr : r.Located) : r.value.Located r.file := by
  intro u
  unfold Inner.value
  dsimp only
  split
  · exact .stop ⟨fun t h => h, by simp⟩
  · have htake : u.Holds ⟨u.tokens.take (Unread.valueLength 0 none u.tokens), u.line⟩ :=
      ⟨[], _, (List.take_append_drop _ _).symm, rfl⟩
    exact ((hr.expression _ _).within htake).bind fun _ _ => .pure (Unread.reaches_skip u _)

theorem Located.readType (hr : r.Located) : r.readType.Located r.file := by
  intro u
  refine (Unread.identifier_located _ u).andThen fun name v => ?_
  dsimp only
  split
  · exact .pure (.refl v)
  · next t w h =>
    refine Logged.Located.later (Unread.reaches_of_accept? h) ?_
    exact (hr.type w).andThen fun element x => .pure (.refl x)

theorem Located.typeAfter (hr : r.Located) (k : Keyword) : (r.typeAfter k).Located r.file := by
  intro u
  unfold Inner.typeAfter
  split
  · exact .pure (.refl u)
  · next t v h =>
    refine Logged.Located.later (Unread.reaches_of_accept? h) ?_
    exact (hr.type v).andThen fun type w => .pure (.refl w)

theorem Located.valueAfter (hr : r.Located) (k : Keyword) : (r.valueAfter k).Located r.file := by
  intro u
  unfold Inner.valueAfter
  split
  · exact .pure (.refl u)
  · next t v h =>
    refine Logged.Located.later (Unread.reaches_of_accept? h) ?_
    exact (hr.value v).andThen fun e w => .pure (.refl w)

/-- A scope that is there has its body read, up to its bracket and in the line where it begins, and
anything else stops the reading on the spot. -/
theorem within_eq_or {α : Type} (b : Bracket) (body : WholeReader α) (u : Unread) :
    (∃ inner tail, u.tokens = enclose b inner ++ tail ∧ Scope.Closes b inner ∧
        r.within b body u = do
          let (a, line) ← body ⟨inner, u.line⟩
          return (a, ⟨tail, line⟩)) ∨
      ∃ p : Problem, p.Fits u.tokens ∧ r.within b body u = u.fault r.file p := by
  unfold Inner.within Unread.require
  split
  · next taken h =>
    obtain ⟨t, rest⟩ := taken
    obtain ⟨hu, hk⟩ := Unread.eq_of_accept? h
    obtain rfl := (Token.kind_eq_mark_iff t _).1 hk
    rw [pure_bind]
    dsimp only
    split
    · exact Or.inr ⟨.unmatched b, ⟨by simp [Problem.shown?, Problem.token?], by simp [hu]⟩, rfl⟩
    · next length hclose =>
      obtain ⟨inner, tail, ht, hcloses, rfl⟩ := (Scope.close?_eq_some_iff b _ _).1 hclose
      have hline : rest.line = u.line := by
        have hlast := (Unread.reaches_of_accept? h).last_eq
        rw [hu] at hlast
        simpa using hlast
      have hinner : rest.tokens.take inner.length = inner := by rw [ht, List.take_left]
      have htail : rest.tokens.drop (inner.length + 1) = tail := by
        rw [ht, List.append_cons, List.drop_left' (by simp)]
      refine Or.inl ⟨inner, tail, ?_, hcloses, ?_⟩
      · rw [hu, ht, Token.enclose_append]
      · rw [hinner, htail, hline]
  · exact Or.inr ⟨.noToken _ _, ⟨fun t h => h, by simp⟩, rfl⟩

/-- What a scope holds ends in the line in which the reading goes on behind it. -/
theorem reaches_behind_scope {u : Unread} {b : Bracket} {inner tail : List Token} {line : Nat}
    (hu : u.tokens = enclose b inner ++ tail) (hline : line = u.line + Token.newlines inner) :
    u.Reaches ⟨tail, line⟩ :=
  ⟨enclose b inner, hu, by simp [enclose, hline]⟩

/-- A body that counts its line breaks leaves the reading behind its bracket in the right line. -/
theorem within_located {α : Type} (b : Bracket) {body : WholeReader α}
    (hbody : body.Located r.file) : (r.within b body).Located r.file := by
  intro u
  rcases within_eq_or (r := r) b body u with ⟨inner, tail, hu, -, he⟩ | ⟨p, hp, he⟩
  · rw [he]
    have hinner : u.Holds ⟨inner, u.line⟩ :=
      ⟨[.opening b], .closing b :: tail, by simp [hu, enclose], by simp⟩
    refine ((hbody _).within hinner).bind ?_
    rintro ⟨a, line⟩ hline
    exact .pure (reaches_behind_scope hu hline)
  · rw [he]
    exact .stop hp

/-- Items take tokens, so there is enough fuel to read them all. -/
theorem lines_located {α : Type} {item : Reader α} (hitem : item.Located r.file)
    (htakes : ∀ {u v n a}, (item u).Yields n (a, v) → v.tokens.length < u.tokens.length)
    {fuel : Nat} {u : Unread} (hf : u.tokens.length ≤ fuel) :
    Logged.Located r.file u (fun b => b.2 = u.line + Token.newlines u.tokens)
      (r.lines item fuel u) := by
  induction fuel generalizing u with
  | zero =>
    have hu : u.tokens = [] := List.eq_nil_of_length_eq_zero (Nat.le_zero.1 hf)
    have hb : u.skipNewlines.tokens = [] := by simp [Unread.skipNewlines, hu, Token.trimStart]
    rw [r.lines_of_blank item 0 hb]
    exact .pure (Unread.line_skipNewlines_of_blank hb)
  | succ fuel ih =>
    by_cases hb : u.skipNewlines.tokens = []
    · rw [r.lines_of_blank item _ hb]
      exact .pure (Unread.line_skipNewlines_of_blank hb)
    · rw [r.lines_of_not_blank item fuel hb]
      have hskip := Unread.reaches_skipNewlines u
      have hle := (Took.refl u.skipNewlines).of_skipNewlines.length_le
      refine Logged.Located.last hskip ?_
      refine (hitem.taking htakes _).bind ?_
      rintro ⟨a, v⟩ ⟨hv, hlt⟩
      refine Logged.Located.last hv ?_
      refine (Unread.requireEnd_located v).bind ?_
      rintro - -
      refine (ih (by dsimp only at hlt; omega)).bind ?_
      rintro ⟨as, line⟩ hline
      exact .pure hline

/-! ## Bodies -/

theorem Located.statements (hr : r.Located) : r.statements.Located r.file :=
  fun _ => lines_located hr.statement (fun h => (hr.keeps.statement h).2) (Nat.le_refl _)

theorem Located.block (hr : r.Located) : r.block.Located r.file :=
  fun u => .later (Unread.reaches_skipNewlines u) (within_located .curly hr.statements _)

/-! ## Models -/

theorem Located.parameter (hr : r.Located) : r.parameter.Located r.file := by
  intro u
  refine (Unread.identifier_located _ u).andThen fun name v => ?_
  refine Unread.word_andThen _ v fun w => ?_
  exact (hr.type w).andThen fun type x => .pure (.refl x)

theorem Located.parametersFrom (hr : r.Located) {fuel : Nat} {u : Unread}
    (hf : u.tokens.length ≤ fuel) :
    Logged.Located r.file u (fun b => b.2 = u.line + Token.newlines u.tokens)
      (r.parametersFrom fuel u) := by
  induction fuel generalizing u with
  | zero =>
    have hu : u.tokens = [] := List.eq_nil_of_length_eq_zero (Nat.le_zero.1 hf)
    have hb : u.skipNewlines.tokens = [] := by simp [Unread.skipNewlines, hu, Token.trimStart]
    rw [r.parametersFrom_of_blank 0 hb]
    exact .pure (Unread.line_skipNewlines_of_blank hb)
  | succ fuel ih =>
    by_cases hb : u.skipNewlines.tokens = []
    · rw [r.parametersFrom_of_blank _ hb]
      exact .pure (Unread.line_skipNewlines_of_blank hb)
    · rw [r.parametersFrom_of_not_blank fuel hb]
      have hskip := Unread.reaches_skipNewlines u
      have hle := (Took.refl u.skipNewlines).of_skipNewlines.length_le
      refine Logged.Located.last hskip ?_
      refine (hr.parameter.taking (fun h => (hr.keeps.parameter h).2) _).bind ?_
      rintro ⟨p, v⟩ ⟨hv, hlt⟩
      refine Logged.Located.last hv ?_
      have hle' := (Took.refl v.skipNewlines).of_skipNewlines.length_le
      dsimp only at hlt ⊢
      split
      · next hend => exact .pure (Unread.line_skipNewlines_of_blank (List.isEmpty_iff.1 hend))
      · unfold Unread.require
        split
        · next taken h =>
          obtain ⟨t, w⟩ := taken
          have hlen : v.skipNewlines.tokens.length = w.tokens.length + 1 := by
            rw [(Unread.eq_of_accept? h).1, List.length_cons]
          have hw := (Unread.reaches_skipNewlines v).trans (Unread.reaches_of_accept? h)
          rw [pure_bind]
          refine Logged.Located.last hw ?_
          refine (ih (by omega)).bind ?_
          rintro ⟨ps, line⟩ hline
          exact .pure hline
        · refine Logged.Located.last (Unread.reaches_skipNewlines v) ?_
          refine Meets.bind (P := fun _ => False) ?_ fun _ h => h.elim
          exact Logged.Located.stop ⟨fun t h => h, by simp⟩

theorem Located.parameters (hr : r.Located) : r.parameters.Located r.file :=
  fun _ => hr.parametersFrom (Nat.le_refl _)

theorem reaches_modifier (k : Keyword) (u : Unread) : u.Reaches (modifier k u).2 := by
  unfold modifier
  split
  · exact .refl u
  · next t v h => exact Unread.reaches_of_accept? h

theorem Located.member (hr : r.Located) : r.member.Located r.file := by
  intro u
  unfold Inner.member
  dsimp only
  refine Logged.Located.later ((reaches_modifier .private' u).trans (reaches_modifier .static _)) ?_
  refine (Unread.identifier_located _ _).andThen fun name v => ?_
  dsimp only
  split
  · next t w h =>
    refine Logged.Located.later (Unread.reaches_of_accept? h) ?_
    refine (hr.type w).andThen fun type x => ?_
    exact (hr.valueAfter .default x).andThen fun initial y => .pure (.refl y)
  · refine (hr.typeAfter .return' v).andThen fun returns w => ?_
    refine Unread.word_andThen _ w fun x => ?_
    refine (within_located .round hr.parameters x).andThen fun parameters y => ?_
    exact (hr.block y).andThen fun body z => .pure (.refl z)

theorem Located.members (hr : r.Located) : r.members.Located r.file :=
  fun _ => lines_located hr.member (fun h => (hr.keeps.member h).2) (Nat.le_refl _)

theorem Located.model (hr : r.Located) : r.model.Located r.file := by
  intro u
  refine Unread.word_andThen _ u fun v => ?_
  refine (Unread.identifier_located _ v).andThen fun name w => ?_
  refine Logged.Located.later (Unread.reaches_skipNewlines w) ?_
  exact (within_located .curly hr.members _).andThen fun members x => .pure (.refl x)

/-! ## Variables and control flow -/

theorem Located.declaration (hr : r.Located) : r.declaration.Located r.file := by
  intro u
  refine Unread.word_andThen _ u fun v => ?_
  refine (Unread.identifier_located _ v).andThen fun name w => ?_
  refine (hr.typeAfter .as' w).andThen fun type x => ?_
  refine Unread.word_andThen _ x fun y => ?_
  exact (hr.value y).andThen fun value z => .pure (.refl z)

theorem Located.index (hr : r.Located) : r.index.Located r.file := by
  intro u
  refine Logged.Located.last (Unread.reaches_skipNewlines u) ?_
  unfold Inner.index
  dsimp only
  split
  · exact .stop (Problem.fits_of_silent rfl (by simp) _)
  · refine (hr.expression _ _).bind ?_
    rintro ⟨e, -⟩ -
    refine .pure ?_
    dsimp only [Unread.skip]
    rw [List.take_length]

theorem Located.indexIfAny (hr : r.Located) : r.indexIfAny.Located r.file := by
  intro u
  unfold Inner.indexIfAny
  split
  · exact (within_located .square hr.index u).andThen fun e v => .pure (.refl v)
  · exact .pure (.refl u)

theorem Located.change (hr : r.Located) : r.change.Located r.file := by
  intro u
  refine Unread.word_andThen _ u fun v => ?_
  refine (Unread.identifier_located _ v).andThen fun name w => ?_
  refine (hr.indexIfAny w).andThen fun index x => ?_
  refine Unread.word_andThen _ x fun y => ?_
  exact (hr.value y).andThen fun value z => .pure (.refl z)

/-- Line breaks that no keyword follows are left for later. -/
theorem Located.otherwise (hr : r.Located) : r.otherwise.Located r.file := by
  intro u
  unfold Inner.otherwise
  split
  · exact .pure (.refl u)
  · next t v h =>
    have hbehind := (Unread.reaches_skipNewlines u).trans (Unread.reaches_of_accept? h)
    refine Logged.Located.later hbehind ?_
    split
    · exact (hr.statement v).andThen fun s w => .pure (.refl w)
    · exact (hr.block v).andThen fun body w => .pure (.refl w)

theorem Located.conditional (hr : r.Located) : r.conditional.Located r.file := by
  intro u
  refine Unread.word_andThen _ u fun v => ?_
  refine (hr.value v).andThen fun condition w => ?_
  refine (hr.block w).andThen fun body x => ?_
  exact (hr.otherwise x).andThen fun otherwise y => .pure (.refl y)

theorem Located.loop (hr : r.Located) : r.loop.Located r.file := by
  intro u
  refine Unread.word_andThen _ u fun v => ?_
  refine (hr.value v).andThen fun condition w => ?_
  exact (hr.block w).andThen fun body x => .pure (.refl x)

theorem Located.result (hr : r.Located) : r.result.Located r.file := by
  intro u
  refine Unread.word_andThen _ u fun v => ?_
  split
  · exact .pure (.refl v)
  · exact .pure (.refl v)
  · exact (hr.value v).andThen fun value w => .pure (.refl w)

/-! ## Levels -/

theorem Located.readStatement (hr : r.Located) : r.readStatement.Located r.file := by
  intro u
  unfold Inner.readStatement
  split
  · exact hr.model u
  · exact hr.declaration u
  · exact hr.change u
  · exact hr.conditional u
  · exact hr.loop u
  · exact hr.result u
  · exact (hr.value u).andThen fun value v => .pure (.refl v)

theorem atDepth_file (file : String) (depth : Nat) : (Inner.atDepth file depth).file = file := by
  cases depth with
  | zero => rfl
  | succ depth => rfl

theorem located_atDepth (file : String) (depth : Nat) : (Inner.atDepth file depth).Located := by
  have hexpression (depth line : Nat) (ts : List Token) :
      Logged.Located (Inner.atDepth file depth).file ⟨ts, line⟩ (fun _ => True)
        ((Inner.atDepth file depth).expression line ts) := by
    rw [atDepth_expression, atDepth_file]
    exact (Expr.located_of_read file depth line ts).mono (fun _ => id) fun _ _ => trivial
  induction depth with
  | zero => exact ⟨hexpression 0, fun _ => .tooDeep, fun _ => .tooDeep, keeps_atDepth file 0⟩
  | succ depth ih =>
    have htype := ih.readType
    have hstatement := ih.readStatement
    rw [atDepth_file] at htype hstatement
    exact ⟨hexpression _, htype, hstatement, keeps_atDepth file _⟩

end Inner

/-- Reading a file ends in the line behind its last token, and stops at a place in it. -/
theorem parseWithin_located (depth : Nat) (file : String) :
    (parseWithin depth file).Located file := by
  intro u
  have hstatements := (Inner.located_atDepth file depth).statements
  rw [Inner.atDepth_file] at hstatements
  refine (hstatements u).bind ?_
  rintro ⟨body, line⟩ hline
  refine Meets.bind (P := fun _ => True) ?_ ?_
  · exact ⟨fun _ => trivial, fun h => (by cases h), fun _ h => (by cases h)⟩
  · rintro - -
    exact .pure hline

/-- A fault names its file and the line of some place among the tokens.  The token that it shows
stands there, or the bracket that is not closed, or a string literal in an interpolation of which
it is found. -/
theorem fault_at_token {depth line line' : Nat} {file file' : String} {source : List Char}
    {tokens : List Token} {f : Fault} (ht : tokenize file' line' source = .ok tokens)
    (hf : (parseWithin depth file ⟨tokens, line⟩).outcome = .error (.fault f)) :
    f.file = file ∧ ∃ k ≤ tokens.length, f.line = line + Token.newlines (tokens.take k) ∧
      (((∀ t, f.problem.token? = some t → tokens[k]? = some t) ∧
          ∀ b, f.problem.category = .missingMatching b → tokens[k]? = some (.opening b)) ∨
        ∃ raw, tokens[k]? = some (.string raw) ∧ f.InString raw) := by
  have hlies := (parseWithin_located depth file ⟨tokens, line⟩).fault hf
  obtain ⟨hfile, v, ⟨before, hv, hline⟩, hl, hfits⟩ := hlies (Lexer.oneLine_of_scan ht)
  have hlen : before.length ≤ tokens.length := by
    have := congrArg List.length hv
    rw [List.length_append] at this
    dsimp only at this
    omega
  have htake : tokens.take before.length = before := by
    dsimp only at hv
    rw [hv, List.take_left]
  have hhead : tokens[before.length]? = v.tokens.head? := by
    dsimp only at hv
    rw [hv, List.getElem?_append_right (Nat.le_refl _), Nat.sub_self, List.head?_eq_getElem?]
  refine ⟨hfile, before.length, hlen, by rw [htake, hl, hline], ?_⟩
  rw [hhead]
  rcases hfits with ⟨ht, hb⟩ | hs
  · refine Or.inl ⟨fun t h => ht t (Problem.shown?_of_token? h), fun b hc => hb b ?_⟩
    cases hp : f.problem <;> rw [hp] at hc <;> cases hc
    rfl
  · exact Or.inr hs

set_option maxRecDepth 20000 in
/-- The parenthesis that is not closed stands in the second line, though the text goes on. -/
theorem fault_at_token_unmatched :
    ∃ tokens, tokenize "m" 1 "a\nf(\n1".toList = .ok tokens ∧
      (parseWithin 4 "m" ⟨tokens, 1⟩).outcome = .error (.fault ⟨"m", 2, .unmatched .round⟩) ∧
      ∃ k ≤ tokens.length, 2 = 1 + Token.newlines (tokens.take k) ∧
        (tokens[k]? = some (.opening .round) ∨ ∃ raw, tokens[k]? = some (.string raw)) := by
  have ht : tokenize "m" 1 "a\nf(\n1".toList
      = .ok [.ident "a", .newline, .ident "f", .opening .round, .newline, .integer "1"] := by rfl
  have hf : (parseWithin 4 "m" ⟨[.ident "a", .newline, .ident "f", .opening .round, .newline,
      .integer "1"], 1⟩).outcome = .error (.fault ⟨"m", 2, .unmatched .round⟩) := by cbv
  obtain ⟨-, k, hk, hline, h⟩ := fault_at_token ht hf
  refine ⟨_, ht, hf, k, hk, hline, ?_⟩
  rcases h with ⟨-, hb⟩ | ⟨raw, hraw, -⟩
  · exact Or.inl (hb .round rfl)
  · exact Or.inr ⟨raw, hraw⟩

end ModelScript
