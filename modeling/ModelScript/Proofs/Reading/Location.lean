import ModelScript.Expression.Parser
import ModelScript.Proofs.Reading.Stopping
import ModelScript.Proofs.Scope.Closing
import ModelScript.Proofs.Token.Blank
import ModelScript.Proofs.Token.Lexing
import ModelScript.Statement.Unread

/-!
# Where faults lie

A place in a list of tokens is the rest of the list behind it, with the line that the rest begins
in: `u.Reaches v` says that `v` is such a place in `u`, and `u.Holds v` that `v` begins at one and
may end before `u` does.  A fault lies at a place if it names its line and, if it shows a token or
an open bracket, that token begins there; what is wrong inside of a string literal lies at the
literal.

`Located file u P x` is what is proved of every reader `x` that starts at `u`: its results have the
property `P`, and its faults lie in `u`.  Readers that are put together are located if their parts
are:

    Located file u P x → (∀ a, P a → Located file u Q (g a)) → Located file u Q (x >>= g)
    u.Holds v → Located file v P x → Located file u P x

The first holds of any property of faults (`Meets.bind`).
-/

namespace ModelScript

open Token (Blank enclose)

/-! ## Places -/

namespace Unread

variable {u v w : Unread}

/-- Some tokens of `u` in a row, with the line that they begin in. -/
def Holds (u v : Unread) : Prop :=
  ∃ before after, u.tokens = before ++ v.tokens ++ after ∧ v.line = u.line + Token.newlines before

/-- The last tokens of `u`, with the line that they begin in. -/
def Reaches (u v : Unread) : Prop :=
  ∃ before, u.tokens = before ++ v.tokens ∧ v.line = u.line + Token.newlines before

theorem Reaches.refl (u : Unread) : u.Reaches u := ⟨[], rfl, rfl⟩

theorem Reaches.trans (h : u.Reaches v) (h' : v.Reaches w) : u.Reaches w := by
  obtain ⟨before, hu, hv⟩ := h
  obtain ⟨before', hv', hw⟩ := h'
  refine ⟨before ++ before', by rw [hu, hv', List.append_assoc], ?_⟩
  rw [Token.newlines_append]
  omega

theorem Reaches.holds (h : u.Reaches v) : u.Holds v := by
  obtain ⟨before, hu, hv⟩ := h
  exact ⟨before, [], by rw [hu, List.append_nil], hv⟩

theorem Holds.trans (h : u.Holds v) (h' : v.Holds w) : u.Holds w := by
  obtain ⟨before, after, hu, hv⟩ := h
  obtain ⟨before', after', hv', hw⟩ := h'
  refine ⟨before ++ before', after' ++ after, by simp [hu, hv'], ?_⟩
  rw [Token.newlines_append]
  omega

theorem Holds.forall_mem {P : Token → Prop} (h : u.Holds v) (hu : ∀ t ∈ u.tokens, P t) :
    ∀ t ∈ v.tokens, P t := by
  obtain ⟨before, after, he, -⟩ := h
  intro t ht
  exact hu t (by simp [he, ht])

/-- The line behind some tokens does not come after the line behind all. -/
theorem Holds.last_le (h : u.Holds v) :
    v.line + Token.newlines v.tokens ≤ u.line + Token.newlines u.tokens := by
  obtain ⟨before, after, he, hv⟩ := h
  rw [he, Token.newlines_append, Token.newlines_append]
  omega

/-- The line behind all tokens is the same wherever they are counted from. -/
theorem Reaches.last_eq (h : u.Reaches v) :
    v.line + Token.newlines v.tokens = u.line + Token.newlines u.tokens := by
  obtain ⟨before, he, hv⟩ := h
  rw [he, Token.newlines_append]
  omega

theorem reaches_skip (u : Unread) (n : Nat) : u.Reaches (u.skip n) :=
  ⟨u.tokens.take n, (List.take_append_drop n u.tokens).symm, rfl⟩

theorem reaches_skipNewlines (u : Unread) : u.Reaches u.skipNewlines := by
  rw [skipNewlines_eq]
  exact reaches_skip u _

/-- Tokens without the line breaks around them, in the line of the first that is left. -/
theorem holds_trim (ts : List Token) (line : Nat) :
    Holds ⟨ts, line⟩ ⟨Token.trim ts, line + Token.leadingNewlines ts⟩ := by
  have h : Reaches ⟨ts, line⟩ ⟨Token.trimStart ts, line + Token.leadingNewlines ts⟩ :=
    reaches_skipNewlines ⟨ts, line⟩
  obtain ⟨bs, -, he, -⟩ := Token.exists_eq_trimEnd (Token.trimStart ts)
  exact h.holds.trans ⟨[], bs, he, rfl⟩

/-- What stands between brackets, in the line of the one that opens them. -/
theorem holds_enclose (b : Bracket) (before inner tail : List Token) (line : Nat) :
    Holds ⟨before ++ enclose b inner ++ tail, line⟩
      ⟨inner, line + Token.newlines (before ++ [.opening b])⟩ :=
  ⟨before ++ [.opening b], .closing b :: tail, by simp [enclose], rfl⟩

theorem holds_intercalate_head (ts : List Token) (rest : List (List Token)) (line : Nat) :
    Holds ⟨List.intercalate [.mark .comma] (ts :: rest), line⟩ ⟨ts, line⟩ := by
  cases rest with
  | nil => exact ⟨[], [], by simp [List.intercalate], rfl⟩
  | cons ts' rest => exact ⟨[], _, by simp [List.intercalate]; rfl, rfl⟩

theorem holds_intercalate_tail (ts : List Token) (rest : List (List Token)) (line : Nat) :
    Holds ⟨List.intercalate [.mark .comma] (ts :: rest), line⟩
      ⟨List.intercalate [.mark .comma] rest, line + Token.newlines ts⟩ := by
  cases rest with
  | nil => exact ⟨ts, [], by simp [List.intercalate], rfl⟩
  | cons ts' rest => exact ⟨ts ++ [.mark .comma], [], by simp [List.intercalate], by simp⟩

end Unread

/-! ## Interpolations -/

namespace Expr

/-- Reads one interpolation of a text. -/
def interpolated (file : String) (read : ExprReader) (line : Nat) (text : List Char)
    (i : Interpolation) : Reading Expr :=
  if i.closing - i.opening < 2 then Reading.fault file line .emptyInterpolation
  else do
    let tokens ← Reading.tokens file line ((text.take i.closing).drop (i.opening + 1))
    let (e, _) ← read line tokens
    return e

/-- The parts of a text are its interpolations, read one after the other. -/
theorem parts_cons (file : String) (read : ExprReader) (line : Nat) (text : List Char)
    (start : Nat) (i : Interpolation) (rest : List Interpolation) :
    parts file read line text start (i :: rest) = do
      let e ← interpolated file read line text i
      let es ← parts file read line text (i.closing + 1) rest
      return piece text start i.marker ++ e :: es := by
  unfold interpolated
  conv => lhs; unfold parts
  split
  · rfl
  · simp only [bind_assoc, pure_bind]

/-- What is wrong in a text is wrong in one of its interpolations. -/
theorem exists_of_parts_faults {file : String} {read : ExprReader} {line start : Nat}
    {text : List Char} {ranges : List Interpolation} {f : Fault}
    (h : (parts file read line text start ranges).Faults f) :
    ∃ i ∈ ranges, (interpolated file read line text i).Faults f := by
  induction ranges generalizing start with
  | nil => exact absurd h (Logged.not_faults_pure _ _)
  | cons i rest ih =>
    rw [parts_cons] at h
    rcases (Logged.faults_bind _ _ _).1 h with h | ⟨_, _, _, h⟩
    · exact ⟨i, by simp, h⟩
    · rcases (Logged.faults_bind _ _ _).1 h with h | ⟨_, _, _, h⟩
      · obtain ⟨j, hj, hf⟩ := ih h
        exact ⟨j, by simp [hj], hf⟩
      · exact absurd h (Logged.not_faults_pure _ _)

end Expr

/-! ## Faults -/

/-- The token that a problem shows. -/
def Problem.token? : Problem → Option Token
  | .noExpression found | .noIdentifier found => found
  | .leftover found => some found
  | _ => none

/-- The token that the message of a problem has in it: one that the problem shows, or the one that
is found in place of a token of another kind. -/
def Problem.shown? : Problem → Option Token
  | .noToken _ found => found
  | p => p.token?

theorem Problem.shown?_of_token? {p : Problem} {t : Token} (h : p.token? = some t) :
    p.shown? = some t := by
  cases p with
  | noToken wanted found => cases h
  | _ => exact h

/-- The token in a message of a problem, or the bracket that is not closed, begins the tokens. -/
def Problem.Fits (p : Problem) (ts : List Token) : Prop :=
  (∀ t, p.shown? = some t → ts.head? = some t) ∧
    ∀ b, p = .unmatched b → ts.head? = some (.opening b)

/-- The fault is one that reading an interpolation of the text in its line stops at. -/
def Fault.InString (f : Fault) (raw : String) : Prop :=
  ∃ depth, ∃ i ∈ Interpolation.ranges raw.toList,
    (Expr.interpolated f.file (Expr.read f.file depth) f.line raw.toList i).Faults f

/-- The tokens begin with what the fault is about. -/
def Fault.Fits (f : Fault) (ts : List Token) : Prop :=
  f.problem.Fits ts ∨ ∃ raw, ts.head? = some (.string raw) ∧ f.InString raw

/-- The fault is one of this file and lies at a place in `u`, if the strings in `u` keep to their
lines. -/
def Fault.Lies (f : Fault) (file : String) (u : Unread) : Prop :=
  (∀ t ∈ u.tokens, t.OneLine) →
    f.file = file ∧ ∃ v, u.Reaches v ∧ f.line = v.line ∧ f.Fits v.tokens

theorem Problem.Fits.append {p : Problem} {ts : List Token} (h : p.Fits ts) (us : List Token) :
    p.Fits (ts ++ us) := by
  obtain ⟨ht, hb⟩ := h
  exact ⟨fun t he => by simp [ht t he], fun b he => by simp [hb b he]⟩

theorem Fault.Fits.append {f : Fault} {ts : List Token} (h : f.Fits ts) (us : List Token) :
    f.Fits (ts ++ us) := by
  rcases h with h | ⟨raw, h, hs⟩
  · exact Or.inl (h.append us)
  · exact Or.inr ⟨raw, by simp [h], hs⟩

/-- A problem that shows no token and is about no bracket fits everywhere. -/
theorem Problem.fits_of_silent {p : Problem} (ht : p.shown? = none) (hb : ∀ b, p ≠ .unmatched b)
    (ts : List Token) : p.Fits ts := by
  refine ⟨?_, fun b h => absurd h (hb b)⟩
  intro t h
  rw [ht] at h
  cases h

theorem Fault.Lies.of_holds {f : Fault} {file : String} {u v : Unread} (h : u.Holds v)
    (hf : f.Lies file v) : f.Lies file u := by
  intro hu
  obtain ⟨hfile, w, ⟨before', hv, hw⟩, hline, hfits⟩ := hf (h.forall_mem hu)
  obtain ⟨before, after, hu', hvl⟩ := h
  refine ⟨hfile, ⟨w.tokens ++ after, w.line⟩, ⟨before ++ before', ?_, ?_⟩, hline,
    hfits.append after⟩
  · simp [hu', hv]
  · rw [Token.newlines_append]
    show w.line = _
    omega

/-- A fault that lies among tokens without line breaks lies in the line of the first. -/
theorem Fault.Lies.line_eq {f : Fault} {file : String} {ts : List Token} {line : Nat}
    (h : f.Lies file ⟨ts, line⟩)
    (hone : ∀ t ∈ ts, t.OneLine) (hts : ∀ t ∈ ts, t ≠ .newline) :
    f.file = file ∧ f.line = line := by
  obtain ⟨hfile, v, ⟨before, hv, hvl⟩, hline, -⟩ := h hone
  have hzero : Token.newlines before = 0 := by
    unfold Token.newlines
    rw [List.countP_eq_zero]
    intro t ht
    rw [Token.isNewline_iff]
    have hmem : t ∈ before ++ v.tokens := by simp [ht]
    rw [← hv] at hmem
    exact hts t hmem
  rw [hzero] at hvl
  exact ⟨hfile, hline.trans hvl⟩

/-! ## Located readers -/

namespace Logged

/-- The faults of a reading have one property, and its results another; and no list is wanted where
there can be none. -/
structure Meets {α : Type} (E : Fault → Prop) (P : α → Prop) (x : Logged Stop α) : Prop where
  result : ∀ {n a}, x.Yields n a → P a
  fault : ∀ {f}, x.Faults f → E f
  list : ∀ k, x.outcome ≠ .error (.noList k)

namespace Meets

variable {α β : Type} {E E' : Fault → Prop} {P P' : α → Prop} {Q : β → Prop}

theorem pure {a : α} (h : P a) : Meets E P (Pure.pure a) where
  result hy := by
    obtain ⟨-, rfl⟩ := (yields_pure _ _ _).1 hy
    exact h
  fault hf := absurd hf (not_faults_pure _ _)
  list k h := by cases h

/-- Reading too deep a text has no result, and no fault either. -/
theorem tooDeep : Meets E P (.fail .tooDeep) where
  result hy := absurd hy (not_yields_fail _ _ _)
  fault hf := by cases hf
  list k h := by cases h

theorem fail {file : String} {line : Nat} {p : Problem} (h : E ⟨file, line, p⟩) :
    Meets E P (Reading.fault file line p) where
  result hy := absurd hy (not_yields_fail _ _ _)
  fault hf := by
    obtain rfl := (faults_fault _ _ _ _).1 hf
    exact h
  list k h := by cases h

theorem mono {x : Logged Stop α} (h : Meets E P x) (hE : ∀ f, E f → E' f)
    (hP : ∀ a, P a → P' a) : Meets E' P' x where
  result hy := hP _ (h.result hy)
  fault hf := hE _ (h.fault hf)
  list := h.list

theorem bind {x : Logged Stop α} {g : α → Logged Stop β} (h : Meets E P x)
    (hg : ∀ a, P a → Meets E Q (g a)) : Meets E Q (x >>= g) where
  result hy := by
    obtain ⟨m, k, a, ha, hb, -⟩ := (yields_bind _ _ _ _).1 hy
    exact (hg a (h.result ha)).result hb
  fault hf := by
    rcases (faults_bind _ _ _).1 hf with hx | ⟨n, a, ha, hga⟩
    · exact h.fault hx
    · exact (hg a (h.result ha)).fault hga
  list k hk := by
    obtain ⟨events, outcome⟩ := x
    cases outcome with
    | error e =>
      cases hk
      exact h.list k rfl
    | ok a => exact (hg a (h.result ⟨rfl, rfl⟩)).list k hk

theorem map {x : Logged Stop α} {g : α → β} (h : Meets E P x) (hg : ∀ a, P a → Q (g a)) :
    Meets E Q (g <$> x) := by
  rw [map_eq_pure_bind]
  exact h.bind fun a ha => .pure (hg a ha)

end Meets

/-- The results of a reading have a property, and its faults lie where it reads. -/
abbrev Located {α : Type} (file : String) (u : Unread) : (α → Prop) → Logged Stop α → Prop :=
  Meets fun f => f.Lies file u

namespace Located

variable {α : Type} {file : String} {u v : Unread} {P : α → Prop}

/-- A fault at the place where reading starts. -/
theorem stop {p : Problem} (h : p.Fits u.tokens) : Located file u P (u.fault file p) :=
  Meets.fail fun _ => ⟨rfl, u, .refl u, rfl, Or.inl h⟩

theorem within {x : Logged Stop α} (h : u.Holds v) (hx : Located file v P x) :
    Located file u P x :=
  hx.mono (fun _ => .of_holds h) fun _ => id

end Located

end Logged

end ModelScript
