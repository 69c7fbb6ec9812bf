import Mathlib.Data.List.Permutation
import ModelScript.Proofs.Statement.Respaced
import ModelScript.Proofs.Statement.Taking

/-!
# Files one after the other

What is read without a warning is read in the same way when other statements follow in a new line:
nothing in it waits for more tokens.  A value has closed its brackets and ends in an operand, so the
line break ends it; a body ends with its brace; and a conditional looks for `else` behind line
breaks, which begins no statement.  `p.Extends` says so of a reader `p`, each reader extends if those
inside do, and so the statements of two files stand one after the other when the files do:

    A yields as, B yields bs → A, a line break and B yield as ++ bs     (parse_append_newline)
-/

namespace ModelScript

open Token (Blank enclose)
open Logged (yields_bind_zero yields_pure yields_pure_pair)

/-! ## Tokens in front of others -/

namespace Unread

/-- The same tokens in front of others. -/
def before (u : Unread) (tail : List Token) : Unread := ⟨u.tokens ++ tail, u.line⟩

variable {u v : Unread} {tail : List Token} {file : String}

theorem skip_before {n : Nat} (h : n ≤ u.tokens.length) (tail : List Token) :
    (u.before tail).skip n = (u.skip n).before tail := by
  unfold skip before
  rw [List.drop_append_of_le_length h, List.take_append_of_le_length h]

theorem skipNewlines_before (h : u.skipNewlines.tokens ≠ []) (tail : List Token) :
    (u.before tail).skipNewlines = u.skipNewlines.before tail := by
  obtain ⟨as, ha, he, hl, hh⟩ := Token.exists_eq_trimStart u.tokens
  obtain ⟨t, ts, hts⟩ := List.exists_cons_of_ne_nil h
  have hts : Token.trimStart u.tokens = t :: ts := hts
  have ht : t ≠ .newline := by
    rintro rfl
    rw [hts] at hh
    exact hh rfl
  have hle : Token.leadingNewlines u.tokens ≤ u.tokens.length := by
    have := Token.length_trimStart u.tokens
    omega
  have hleading : Token.leadingNewlines (u.tokens ++ tail) = Token.leadingNewlines u.tokens := by
    have hlen := Token.length_trimStart (u.tokens ++ tail)
    have hlen' := Token.length_trimStart u.tokens
    have htrim : Token.trimStart (u.tokens ++ tail) = Token.trimStart u.tokens ++ tail := by
      conv => lhs; rw [he, List.append_assoc, ha.trimStart_append, hts, List.cons_append,
        Token.trimStart_cons_of_ne ht]
      rw [hts, List.cons_append]
    rw [htrim, List.length_append, List.length_append] at hlen
    omega
  rw [skipNewlines_eq, skipNewlines_eq, ← skip_before hle]
  exact congrArg (u.before tail).skip hleading

theorem accept?_before (he : Ends tail) {k : Kind} (hk : k ≠ .newline) (u : Unread) :
    (u.before tail).accept? k = (u.accept? k).map fun p => (p.1, p.2.before tail) := by
  obtain ⟨ts, line⟩ := u
  cases ts with
  | nil =>
    cases he with
    | nil => rfl
    | newline => simp [accept?, before, Token.kind, hk.symm]
  | cons t ts =>
    have hskip := skip_before (u := ⟨t :: ts, line⟩) (n := 1) (by simp) tail
    by_cases ht : t.kind = k
    · simpa [accept?, before, ht] using hskip
    · simp [accept?, before, ht]

theorem requireEnd_before (he : Ends tail) {n : Nat} (h : (u.requireEnd file).Yields n ()) :
    ((u.before tail).requireEnd file).Yields n () := by
  obtain ⟨ts, line⟩ := u
  cases ts with
  | nil =>
    show (requireEnd file ⟨tail, line⟩).Yields n ()
    rw [requireEnd_of_ends file he]
    exact h
  | cons t ts => cases t <;> exact h

end Unread

/-! ## Readers -/

/-- What the reader reads without a warning it reads in front of other statements too. -/
structure Reader.Extends {α : Type} (p : Reader α) : Prop where
  before : ∀ {u v : Unread} {a : α} {tail : List Token}, Ends tail → (p u).Yields 0 (a, v) →
    (p (u.before tail)).Yields 0 (a, v.before tail)

namespace Reader.Extends

variable {α β : Type} {file : String}

theorem pure (a : α) : Reader.Extends fun u => Pure.pure (a, u) := by
  refine ⟨fun {u v a' tail} _ h => ?_⟩
  obtain ⟨-, rfl, rfl⟩ := (yields_pure_pair _ _ _ _ _).1 h
  exact (yields_pure _ _ _).2 ⟨rfl, rfl⟩

theorem bind {p : Reader α} {g : α × Unread → Reading (β × Unread)} (hp : p.Extends)
    (hg : ∀ a, Reader.Extends fun v => g (a, v)) : Reader.Extends fun u => p u >>= g := by
  refine ⟨fun {u w b tail} he h => ?_⟩
  obtain ⟨⟨a, v⟩, ha, hb⟩ := (yields_bind_zero _ _ _).1 h
  exact (hp.before he ha).bind_zero ((hg a).before he hb)

theorem require {k : Kind} (hk : k ≠ .newline) : Reader.Extends (Unread.require file k) := by
  refine ⟨fun {u v t tail} he h => ?_⟩
  unfold Unread.require at h ⊢
  rw [Unread.accept?_before he hk]
  cases ha : u.accept? k with
  | none =>
    rw [ha] at h
    exact absurd h (Logged.not_yields_fault _ _ _ _ _)
  | some taken =>
    rw [ha] at h
    obtain ⟨-, rfl⟩ := (yields_pure _ _ _).1 h
    exact (yields_pure _ _ _).2 ⟨rfl, rfl⟩

theorem word (k : Keyword) {p : Reader β} (hp : p.Extends) :
    Reader.Extends fun u => u.word file k >>= p := by
  refine ⟨fun {u w b tail} he h => ?_⟩
  obtain ⟨v, hv, hb⟩ := (yields_bind_zero _ _ _).1 h
  obtain ⟨⟨t, _⟩, hreq, rfl⟩ := (Logged.yields_map _ _ _ _).1 hv
  have hword : ((u.before tail).word file k).Yields 0 (v.before tail) :=
    (Logged.yields_map _ _ _ _).2 ⟨_, (require (by simp)).before he hreq, rfl⟩
  exact hword.bind_zero (hp.before he hb)

theorem identifier : Reader.Extends (Unread.identifier file) := by
  refine ⟨fun {u v name tail} he h => ?_⟩
  obtain ⟨-, hu⟩ := Unread.eq_of_identifier h
  obtain ⟨ts, line⟩ := u
  obtain rfl : ts = _ := hu
  rw [Unread.identifier_cons] at h
  obtain ⟨-, -, hv⟩ := (yields_pure_pair _ _ _ _ _).1 h
  rw [hv]
  exact (yields_pure _ _ _).2 ⟨rfl, rfl⟩

end Reader.Extends

namespace Inner

/-- What is known of the readers for what stands inside: expressions that they read without a
warning are derived, and the others extend. -/
structure Extends (r : Inner) : Prop where
  expression : ∀ {line reached ts e}, (r.expression line ts).Yields 0 (e, reached) →
    Derives (Token.unbroken ts) e
  type : r.type.Extends
  statement : r.statement.Extends

variable {r : Inner} {α : Type}

/-! ## Values, types and scopes -/

theorem Extends.value (hr : r.Extends) : r.value.Extends := by
  refine ⟨fun {u v e tail} he h => ?_⟩
  unfold Inner.value at h ⊢
  dsimp only at h ⊢
  split at h
  · exact absurd h (Logged.not_yields_fault _ _ _ _ _)
  · next hlen =>
    obtain ⟨⟨e', reached⟩, hy, hp⟩ := (yields_bind_zero _ _ _).1 h
    obtain ⟨-, rfl, rfl⟩ := (yields_pure_pair _ _ _ _ _).1 hp
    have hvalue : Unread.valueLength 0 none (u.before tail).tokens
        = Unread.valueLength 0 none u.tokens :=
      Unread.valueLength_append_of_ends (hr.expression hy) he
    have hle := Unread.valueLength_le 0 none u.tokens
    have htake : (u.before tail).tokens.take (Unread.valueLength 0 none u.tokens)
        = u.tokens.take (Unread.valueLength 0 none u.tokens) :=
      List.take_append_of_le_length hle
    rw [hvalue, if_neg hlen, htake, Unread.skip_before hle]
    exact hy.bind_zero ((yields_pure _ _ _).2 ⟨rfl, rfl⟩)

theorem Extends.readType (hr : r.Extends) : r.readType.Extends := by
  refine .bind .identifier fun name => ?_
  refine ⟨fun {u v t tail} he h => ?_⟩
  dsimp only at h ⊢
  rw [Unread.accept?_before he (by simp)]
  cases ha : u.accept? (.keyword .of) with
  | none =>
    rw [ha] at h
    exact (Reader.Extends.pure _).before he h
  | some taken =>
    rw [ha] at h
    exact (hr.type.bind (fun element => .pure (TypeRef.of name element))).before he h

theorem Extends.typeAfter (hr : r.Extends) (k : Keyword) : (r.typeAfter k).Extends := by
  refine ⟨fun {u v t tail} he h => ?_⟩
  unfold Inner.typeAfter at h ⊢
  rw [Unread.accept?_before he (by simp)]
  cases ha : u.accept? (.keyword k) with
  | none =>
    rw [ha] at h
    exact (Reader.Extends.pure _).before he h
  | some taken =>
    rw [ha] at h
    exact (hr.type.bind (fun type => .pure (some type))).before he h

theorem within_extends (b : Bracket) (body : WholeReader α) : (r.within b body).Extends := by
  refine ⟨fun {u v a tail} _ h => ?_⟩
  rcases within_eq_or (r := r) b body u with ⟨inner, rest, hu, hc, he⟩ | ⟨p, -, he⟩
  · rw [he] at h
    have hbefore : u.before tail = ⟨enclose b inner ++ (rest ++ tail), u.line⟩ := by
      unfold Unread.before
      rw [hu, List.append_assoc]
    obtain ⟨⟨a', line⟩, ha, hp⟩ := (yields_bind_zero _ _ _).1 h
    obtain ⟨-, rfl, rfl⟩ := (yields_pure_pair _ _ _ _ _).1 hp
    rw [hbefore, within_eq body hc]
    exact ha.bind_zero ((yields_pure _ _ _).2 ⟨rfl, rfl⟩)
  · rw [he] at h
    exact absurd h (Logged.not_yields_fault _ _ _ _ _)

theorem within_skipNewlines_extends (b : Bracket) (body : WholeReader α) :
    Reader.Extends fun u => r.within b body u.skipNewlines := by
  refine ⟨fun {u v a tail} he h => ?_⟩
  have hne : u.skipNewlines.tokens ≠ [] := by
    rcases within_eq_or (r := r) b body u.skipNewlines with ⟨inner, rest, hu, -⟩ | ⟨p, -, hp⟩
    · simp [hu, enclose]
    · rw [hp] at h
      exact absurd h (Logged.not_yields_fault _ _ _ _ _)
  rw [Unread.skipNewlines_before hne]
  exact (within_extends b body).before he h

theorem block_extends : r.block.Extends := within_skipNewlines_extends .curly r.statements

/-! ## Statements -/

theorem model_extends : r.model.Extends := by
  refine .word _ (.bind .identifier fun name => ?_)
  exact (within_skipNewlines_extends .curly r.members).bind fun members => .pure _

theorem Extends.declaration (hr : r.Extends) : r.declaration.Extends := by
  refine .word _ (.bind .identifier fun name => (hr.typeAfter .as').bind fun type => ?_)
  exact .word _ (hr.value.bind fun value => .pure _)

theorem indexIfAny_extends : r.indexIfAny.Extends := by
  refine ⟨fun {u v index tail} he h => ?_⟩
  have hstarts : (u.before tail).startsWith (.mark (.opening .square))
      = u.startsWith (.mark (.opening .square)) := by
    obtain ⟨ts, line⟩ := u
    cases ts with
    | nil => cases he <;> rfl
    | cons t ts => rfl
  unfold Inner.indexIfAny at h ⊢
  rw [hstarts]
  split at h
  · next hs =>
    rw [if_pos hs]
    exact ((within_extends .square r.index).bind (fun e => .pure (some e))).before he h
  · next hs =>
    rw [if_neg hs]
    exact (Reader.Extends.pure _).before he h

theorem Extends.change (hr : r.Extends) : r.change.Extends := by
  refine .word _ (.bind .identifier fun name => indexIfAny_extends.bind fun index => ?_)
  exact .word _ (hr.value.bind fun value => .pure _)

/-- Statements that follow do not begin with `else`, and nothing else stands behind it alone. -/
theorem Extends.otherwise (hr : r.Extends) : r.otherwise.Extends := by
  refine ⟨fun {u v o tail} he h => ?_⟩
  unfold Inner.otherwise at h ⊢
  cases ha : u.skipNewlines.accept? (.keyword .else') with
  | none =>
    rw [ha] at h
    have hnone : (u.before tail).skipNewlines.accept? (.keyword .else') = none := by
      by_cases hblank : u.skipNewlines.tokens = []
      · refine Unread.accept?_eq_none ?_ _
        have hskip := ((Token.trimStart_eq_nil_iff _).1 hblank).trimStart_append tail
        show (Token.trimStart (u.tokens ++ tail)).head? ≠ _
        rw [hskip, Token.head?_trimStart]
        cases he with
        | nil => simp [Token.significant?]
        | newline hr => exact fun hs => (hr _ hs).2.2 rfl
      · rw [Unread.skipNewlines_before hblank, Unread.accept?_before he (by simp), ha]
        rfl
    rw [hnone]
    exact (Reader.Extends.pure _).before he h
  | some taken =>
    obtain ⟨t, w⟩ := taken
    rw [ha] at h
    have hne : u.skipNewlines.tokens ≠ [] := by simp [(Unread.eq_of_accept? ha).1]
    rw [Unread.skipNewlines_before hne, Unread.accept?_before he (by simp), ha]
    have hstarts : (w.before tail).startsWith (.keyword .if') = w.startsWith (.keyword .if') := by
      obtain ⟨ts, line⟩ := w
      cases ts with
      | nil => cases he <;> rfl
      | cons t ts => rfl
    dsimp only [Option.map_some] at h ⊢
    rw [hstarts]
    split at h
    · next hs =>
      rw [if_pos hs]
      exact (hr.statement.bind (fun s => .pure (some [s]))).before he h
    · next hs =>
      rw [if_neg hs]
      exact (block_extends.bind (fun body => .pure (some body))).before he h

theorem Extends.conditional (hr : r.Extends) : r.conditional.Extends := by
  refine .word _ (hr.value.bind fun condition => block_extends.bind fun body => ?_)
  exact hr.otherwise.bind fun otherwise => .pure _

theorem Extends.loop (hr : r.Extends) : r.loop.Extends :=
  .word _ (hr.value.bind fun _ => block_extends.bind fun _ => .pure _)

theorem Extends.result (hr : r.Extends) : r.result.Extends := by
  refine .word _ ?_
  refine ⟨fun {u v s tail} he h => ?_⟩
  obtain ⟨ts, line⟩ := u
  cases ts with
  | nil =>
    obtain ⟨-, rfl, rfl⟩ := (yields_pure_pair _ _ _ _ _).1 h
    cases he <;> exact (yields_pure _ _ _).2 ⟨rfl, rfl⟩
  | cons t ts =>
    cases t with
    | newline =>
      obtain ⟨-, rfl, rfl⟩ := (yields_pure_pair _ _ _ _ _).1 h
      exact (yields_pure _ _ _).2 ⟨rfl, rfl⟩
    | _ => exact (hr.value.bind (fun value => .pure (Statement.result (some value)))).before he h

theorem Extends.bare (hr : r.Extends) :
    Reader.Extends fun u => do let (value, u) ← r.value u; return (Statement.bare value, u) :=
  hr.value.bind fun _ => .pure _

/-! ## Levels -/

theorem Extends.readStatement (hr : r.Extends) : r.readStatement.Extends := by
  refine ⟨fun {u v s tail} he h => ?_⟩
  obtain ⟨ts, line⟩ := u
  cases ts with
  | nil =>
    obtain ⟨p, hp, -⟩ := (yields_bind_zero _ _ _).1 h
    exact absurd hp (Logged.not_yields_fault _ _ _ _ _)
  | cons t ts =>
    cases t with
    | keyword k =>
      cases k with
      | describe => exact model_extends.before he h
      | let' => exact hr.declaration.before he h
      | make => exact hr.change.before he h
      | if' => exact hr.conditional.before he h
      | while' => exact hr.loop.before he h
      | return' => exact hr.result.before he h
      | _ => exact hr.bare.before he h
    | _ => exact hr.bare.before he h

theorem extends_atDepth (file : String) (depth : Nat) : (Inner.atDepth file depth).Extends := by
  have hexpression {depth line reached : Nat} {ts : List Token} {e : Expr}
      (h : ((Inner.atDepth file depth).expression line ts).Yields 0 (e, reached)) :
      Derives (Token.unbroken ts) e := by
    rw [atDepth_expression] at h
    exact Expr.derives_of_yields h
  induction depth with
  | zero =>
    exact ⟨hexpression, ⟨fun _ h => absurd h (Logged.not_yields_fail _ _ _)⟩,
      ⟨fun _ h => absurd h (Logged.not_yields_fail _ _ _)⟩⟩
  | succ depth ih => exact ⟨hexpression, ih.readType, ih.readStatement⟩

/-! ## Lines -/

theorem lines_congr {item : Reader α} (fuel : Nat) {u v : Unread}
    (h : u.skipNewlines = v.skipNewlines) : r.lines item fuel u = r.lines item fuel v := by
  unfold lines
  rw [h]

theorem lines_before_of_blank {item : Reader α} {ts : List Token} {bs : List α} {n fuel : Nat}
    {u : Unread} (hu : Token.Blank u.tokens)
    (hts : ∀ line, (r.lines item fuel ⟨ts, line⟩).Yields n (bs, line + Token.newlines ts)) :
    (r.lines item fuel (u.before (.newline :: ts))).Yields n
      (bs, u.line + Token.newlines u.tokens + 1 + Token.newlines ts) := by
  have hskip : (u.before (.newline :: ts)).skipNewlines
      = Unread.skipNewlines ⟨ts, u.line + Token.newlines u.tokens + 1⟩ := by
    unfold Unread.before
    rw [Unread.skipNewlines_blank_append hu, Unread.skipNewlines_newline_cons]
  rw [lines_congr fuel hskip]
  exact hts _

/-- Items that are read without a warning, and then those behind the next line break. -/
theorem lines_append {item : Reader α} (hi : item.Extends)
    (htakes : ∀ {u v n a}, (item u).Yields n (a, v) → v.tokens.length < u.tokens.length)
    (hlocated : item.Located r.file) {ts : List Token} {bs : List α} {n : Nat}
    (he : Ends (.newline :: ts))
    (hts : ∀ fuel line, ts.length ≤ fuel →
      (r.lines item fuel ⟨ts, line⟩).Yields n (bs, line + Token.newlines ts))
    {fuel fuel' last : Nat} {u : Unread} {as : List α} (hf : u.tokens.length ≤ fuel)
    (hf' : u.tokens.length + ts.length ≤ fuel')
    (h : (r.lines item fuel u).Yields 0 (as, last)) :
    (r.lines item fuel' (u.before (.newline :: ts))).Yields n
      (as ++ bs, u.line + Token.newlines u.tokens + 1 + Token.newlines ts) := by
  -- Without items, the line breaks are those in front of what follows.
  have hblank {u : Unread} {fuel fuel' last : Nat} {as : List α}
      (hf' : u.tokens.length + ts.length ≤ fuel') (hb : u.skipNewlines.tokens = [])
      (h : (r.lines item fuel u).Yields 0 (as, last)) :
      (r.lines item fuel' (u.before (.newline :: ts))).Yields n
        (as ++ bs, u.line + Token.newlines u.tokens + 1 + Token.newlines ts) := by
    rw [r.lines_of_blank item fuel hb] at h
    obtain ⟨-, rfl, -⟩ := (yields_pure_pair _ _ _ _ _).1 h
    exact lines_before_of_blank ((Token.trimStart_eq_nil_iff _).1 hb) fun line =>
      hts fuel' line (by omega)
  induction fuel generalizing fuel' last u as with
  | zero =>
    have hu : u.tokens = [] := List.eq_nil_of_length_eq_zero (Nat.le_zero.1 hf)
    exact hblank hf' (by simp [Unread.skipNewlines, hu, Token.trimStart]) h
  | succ fuel ih =>
    by_cases hb : u.skipNewlines.tokens = []
    · exact hblank hf' hb h
    · rw [r.lines_of_not_blank item fuel hb] at h
      obtain ⟨⟨a, v⟩, ha, h⟩ := (yields_bind_zero _ _ _).1 h
      obtain ⟨_, hend, h⟩ := (yields_bind_zero _ _ _).1 h
      obtain ⟨⟨as', last'⟩, has, h⟩ := (yields_bind_zero _ _ _).1 h
      obtain ⟨-, rfl, rfl⟩ := (yields_pure_pair _ _ _ _ _).1 h
      have hlt := htakes ha
      have hle := (Took.refl u.skipNewlines).of_skipNewlines.length_le
      have hpos := List.length_pos_of_ne_nil hb
      obtain ⟨fuel', rfl⟩ : ∃ k, fuel' = k + 1 := ⟨fuel' - 1, by omega⟩
      have hskip := Unread.skipNewlines_before hb (.newline :: ts)
      have hlast := ((Unread.reaches_skipNewlines u).trans ((hlocated _).result ha)).last_eq
      have hfuel : v.tokens.length + ts.length ≤ fuel' := by omega
      have hrest := ih (by omega) hfuel has
      rw [r.lines_of_not_blank item fuel' (by rw [hskip]; simp [Unread.before]), hskip]
      refine (hi.before he ha).bind_zero ((Unread.requireEnd_before he hend).bind_zero ?_)
      dsimp only at hlast hrest ⊢
      rw [hlast] at hrest
      exact (Logged.yields_bind _ _ _ _).2
        ⟨n, 0, _, hrest, (yields_pure _ _ _).2 ⟨rfl, rfl⟩, rfl⟩

/-! ## What begins no statement -/

theorem not_yields_keyword {file : String} {depth line n : Nat} {k : Keyword} {ts : List Token}
    {p : Expr × Nat} : ¬ (Expr.read file depth line (.keyword k :: ts)).Yields n p := by
  intro h
  cases depth with
  | zero => exact Logged.not_yields_fail _ _ _ h
  | succ depth =>
    have h : (Expr.readStep file _ line (.keyword k :: ts)).Yields n p := h
    obtain ⟨bs, hb, hbody, -⟩ := Token.exists_eq_trimEnd (.keyword k :: ts)
    unfold Expr.readStep at h
    dsimp only at h
    rw [Token.trimStart_cons_of_ne (by simp)] at h
    cases hs : Token.trimEnd (.keyword k :: ts) with
    | nil =>
      rw [hs, List.nil_append] at hbody
      exact absurd (hb (.keyword k) (by simp [← hbody])) (by simp)
    | cons t rest =>
      rw [hs, List.cons_append] at hbody
      obtain ⟨rfl, -⟩ := List.cons.inj hbody
      rw [hs] at h
      exact Logged.not_yields_fault _ _ _ _ _ h

theorem not_yields_else {file : String} {depth n line : Nat} {ts : List Token}
    {p : Statement × Unread} :
    ¬ ((Inner.atDepth file depth).statement ⟨.keyword .else' :: ts, line⟩).Yields n p := by
  intro h
  cases depth with
  | zero => exact Logged.not_yields_fail _ _ _ h
  | succ depth =>
    obtain ⟨m, k, ⟨e, v⟩, hv, -, -⟩ := (Logged.yields_bind _ _ _ _).1 h
    obtain ⟨m', k', ⟨e', reached⟩, he, -, -⟩ := (Logged.yields_bind _ _ _ _).1 hv
    rw [atDepth_expression] at he
    exact not_yields_keyword he

end Inner

/-- What is read as a file can stand behind another one, if it does not begin with an operator. -/
theorem ends_of_yields {file : String} {depth n line last : Nat} {ts : List Token}
    {body : List Statement}
    (h : ((Inner.atDepth file depth).statements ⟨ts, line⟩).Yields n (body, last))
    (hop : ∀ op, Token.significant? ts ≠ some (.operator op)) : Ends (.newline :: ts) := by
  refine .newline fun t ht => ⟨?_, ?_, ?_⟩
  · have := List.find?_some ht
    rintro rfl
    simp [Token.isNewline] at this
  · rintro op rfl
    exact hop op ht
  · rintro rfl
    have hskip : ∃ rest, (⟨ts, line⟩ : Unread).skipNewlines.tokens = .keyword .else' :: rest := by
      rw [← Token.head?_trimStart] at ht
      obtain ⟨rest, hrest⟩ := List.head?_eq_some_iff.1 ht
      exact ⟨rest, hrest⟩
    obtain ⟨rest, hrest⟩ := hskip
    have hne : (⟨ts, line⟩ : Unread).skipNewlines.tokens ≠ [] := by simp [hrest]
    obtain ⟨t, us, rfl⟩ : ∃ t us, ts = t :: us := by
      refine List.exists_cons_of_ne_nil ?_
      rintro rfl
      exact hne rfl
    unfold Inner.statements at h
    rw [List.length_cons, Inner.lines_of_not_blank _ _ _ hne] at h
    obtain ⟨m, k, p, hp, -, -⟩ := (Logged.yields_bind _ _ _ _).1 h
    have hshape : (⟨t :: us, line⟩ : Unread).skipNewlines
        = ⟨.keyword .else' :: rest, (⟨t :: us, line⟩ : Unread).skipNewlines.line⟩ := by
      rw [← hrest]
    rw [hshape] at hp
    exact Inner.not_yields_else hp

/-- Files are composed by writing them one after the other: if the first is read without a warning
and the second does not begin with an operator, then both together, with a line break between them,
are read as the statements of the first and then those of the second, up to the line behind the last
token, at every depth at which each of them is read. -/
theorem parse_append_newline {depthA depthB depth n lineA lineB lastA lastB : Nat}
    {fileA fileB : String} {A B : List Token} {as bs : List Statement}
    (hA : (parseWithin depthA fileA ⟨A, lineA⟩).Yields 0 (as, lastA))
    (hB : (parseWithin depthB fileB ⟨B, lineB⟩).Yields n (bs, lastB))
    (hop : ∀ op, Token.significant? B ≠ some (.operator op))
    (hdA : depthA ≤ depth) (hdB : depthB ≤ depth) (file : String) (line : Nat) :
    (parseWithin depth file ⟨A ++ .newline :: B, line⟩).Yields n
      (as ++ bs, line + Token.newlines A + 1 + Token.newlines B) := by
  have hr := Inner.extends_atDepth file depth
  have hl := Inner.located_atDepth file depth
  have hsecond (fuel line : Nat) (hf : B.length ≤ fuel) :=
    yields_lines_of_parse hdB hB file line hf
  rw [yields_parseWithin_iff]
  exact Inner.lines_append hr.statement (fun hy => (hl.keeps.statement hy).2) hl.statement
    (ends_of_yields (hsecond B.length line (Nat.le_refl _)) hop) hsecond (u := ⟨A, line⟩)
    (Nat.le_refl _) (by simp) (yields_lines_of_parse hdA hA file line (Nat.le_refl _))

set_option maxRecDepth 20000 in
/-- A conditional that could still have an `else`, and then a blank line and a prefix operator. -/
theorem parse_append_newline_conditional :
    let A : List Token := [.keyword .if', .ident "a", .opening .curly, .newline, .closing .curly]
    let B : List Token := [.newline, .prefixOperator "not", .ident "b"]
    let s : Statement := .conditional (.atom .identifier "a") [] none
    let t : Statement := .bare (.prefixed "not" (.atom .identifier "b"))
    (parseWithin 2 "first" ⟨A, 1⟩).Yields 0 ([s], 2) ∧
      (parseWithin 3 "second" ⟨B, 1⟩).Yields 0 ([t], 2) ∧
      (∀ op, Token.significant? B ≠ some (.operator op)) ∧
      (parseWithin 3 "both" ⟨A ++ .newline :: B, 7⟩).Yields 0 ([s, t], 10) := by
  intro A B s t
  have hA : (parseWithin 2 "first" ⟨A, 1⟩).Yields 0 ([s], 2) := ⟨by cbv, by cbv⟩
  have hB : (parseWithin 3 "second" ⟨B, 1⟩).Yields 0 ([t], 2) := ⟨by cbv, by cbv⟩
  have hop : ∀ op, Token.significant? B ≠ some (.operator op) := by
    simp [B, Token.significant?, Token.isNewline]
  exact ⟨hA, hB, hop, parse_append_newline hA hB hop (by decide) (by decide) "both" 7⟩

end ModelScript
