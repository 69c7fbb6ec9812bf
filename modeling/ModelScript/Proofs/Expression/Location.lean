import ModelScript.Proofs.Expression.Step
import ModelScript.Proofs.Reading.Location

/-!
# Where an expression goes wrong

The reader of expressions hands lines on in many ways: operands share a line with what stands in
front of them, elements and indices are counted anew, and the line reached in the left operand is
weighed against the line of the operator.  Every reading is located all the same
(`located_of_read`): the line reached lies between the first token and the last that are no line
breaks, and a fault lies at a place among the tokens.  In particular the line reached in a left
operand never passes the line of its operator, so the right operand begins in the operator's line
(`read_reaches`).
-/

namespace ModelScript

open Token (Blank enclose)
open Logged (Located Meets)

namespace Expr

/-- The line reached lies between two lines. -/
def Between (first last : Nat) (p : Expr × Nat) : Prop := first ≤ p.2 ∧ p.2 ≤ last

variable {file : String} {read : ExprReader} {line : Nat}

/-! ## Splits -/

/-- The operator that splits tokens stands behind the left operand and in front of the right one. -/
theorem exists_operator_of_split? {length : Nat} {ts : List Token} {s : Split}
    (h : split? length ts = some s) :
    ∃ k, length ≤ k ∧ ts[k]? = some (.operator s.operator) ∧
      s.left = Token.trimEnd (ts.take length) ∧ s.right = ts.drop (k + 1) ∧
      s.newlines = Token.newlines (ts.take k) := by
  unfold split? at h
  split at h
  · next op t rest htrim =>
    cases h
    have hdrop : ts.drop (length + Token.leadingNewlines (ts.drop length))
        = .operator op :: t :: rest := by
      rw [← List.drop_drop, Token.drop_leadingNewlines, htrim]
    refine ⟨length + Token.leadingNewlines (ts.drop length), Nat.le_add_right _ _, ?_, rfl, ?_, ?_⟩
    · rw [← List.head?_drop, hdrop]
      rfl
    · rw [← List.drop_drop, hdrop]
      rfl
    · dsimp only
      rw [List.take_add, Token.newlines_append, Token.newlines_take_leadingNewlines]
  · cases h

/-- The left operand ends in the line of the operator or in front of it. -/
theorem newlines_left_le {length : Nat} {ts : List Token} {s : Split}
    (h : split? length ts = some s) : Token.newlines s.left ≤ s.newlines := by
  obtain ⟨k, hk, -, hleft, -, hn⟩ := exists_operator_of_split? h
  have htrim := Token.newlines_trimEnd_le (ts.take length)
  have hsplit : ts.take k = ts.take length ++ (ts.drop length).take (k - length) := by
    rw [← List.take_add, Nat.add_sub_cancel' hk]
  rw [hleft, hn, hsplit, Token.newlines_append]
  omega

/-! ## Lists -/

/-- The only element of a list has no fault that is not left out. -/
theorem not_faults_onlyElement (read : ExprReader) (line : Nat) (ts : List Token) (f : Fault) :
    ¬ (onlyElement read line ts).Faults f := by
  unfold Logged.Faults onlyElement
  dsimp only
  intro h
  split at h
  · cases h
  · cases h
  · next stop hs _ =>
    cases h
    exact hs f rfl

/-- An open bracket lies where it stands. -/
theorem unmatched_located {α : Type} {P : α → Prop} (line : Nat) (b : Bracket)
    (before rest : List Token) :
    Located file ⟨before ++ .opening b :: rest, line⟩ P
      (Reading.fault file (line + Token.newlines before) (.unmatched b)) := by
  have hreach : Unread.Reaches ⟨before ++ .opening b :: rest, line⟩
      ⟨.opening b :: rest, line + Token.newlines before⟩ := ⟨before, rfl, rfl⟩
  exact (Located.stop ⟨by simp [Problem.shown?, Problem.token?], by simp⟩).within hreach.holds

section

variable (hr : ∀ (line : Nat) (ts : List Token), Located file ⟨ts, line⟩
  (Between (line + Token.leadingNewlines ts) (line + Token.newlines (Token.trimEnd ts)))
  (read line ts))
include hr

/-- What is wrong in the only element of a list is left out. -/
theorem onlyElement_located (u : Unread) (line : Nat) (ts : List Token) :
    Located file u (fun _ => True) (onlyElement read line ts) := by
  have hlist := (hr line ts).list
  refine ⟨fun _ => trivial, fun hf => absurd hf (not_faults_onlyElement _ _ _ _), fun k hk => ?_⟩
  unfold onlyElement at hk
  dsimp only at hk
  split at hk
  · cases hk
  · cases hk
  · next stop _ ho =>
    cases hk
    exact hlist k ho

theorem elements_located (line : Nat) (segments : List (List Token)) :
    Located file ⟨List.intercalate [.mark .comma] segments, line⟩ (fun _ => True)
      (elements read line segments) := by
  induction segments generalizing line with
  | nil => exact .pure trivial
  | cons ts rest ih =>
    unfold elements
    refine ((hr line ts).within (Unread.holds_intercalate_head ts rest line)).bind ?_
    rintro ⟨e, reached⟩ -
    refine ((ih _).within (Unread.holds_intercalate_tail ts rest line)).bind ?_
    rintro es -
    exact .pure trivial

theorem readList_located (line : Nat) {b : Bracket} {before inner : List Token}
    (hb : ∀ a ∈ before, a ≠ .opening b) (hc : Scope.Closes b inner) (tail : List Token) :
    Located file ⟨before ++ enclose b inner ++ tail, line⟩ (fun _ => True)
      (readList file read (.mark (.opening b)) (.mark (.closing b)) line
        (before ++ enclose b inner ++ tail)) := by
  rw [readList_eq hb hc]
  split
  · exact .pure trivial
  · split
    · exact onlyElement_located hr _ _ inner
    · refine (elements_located hr _ _).within ?_
      rw [Scope.intercalate_segments]
      exact Unread.holds_enclose b before inner tail line

/-! ## Operators -/

/-- Reading the left operand does not come beyond the line of the operator. -/
theorem reached_le_of_split? {length line reached : Nat} {ts : List Token} {s : Split} {e : Expr}
    (hs : split? length ts = some s) (h : (read line s.left).outcome = .ok (e, reached)) :
    reached ≤ line + s.newlines := by
  have hlast := ((hr line s.left).result ⟨h, rfl⟩).2
  have htrim := Token.newlines_trimEnd_le s.left
  have hleft := newlines_left_le hs
  dsimp only at hlast
  omega

/-- The right operand is read in the line of its operator. -/
theorem operation?_eq_of_split? {length : Nat} {ts : List Token} {s : Split}
    (hs : split? length ts = some s) (line : Nat) :
    operation? read length line ts = do
      let (left, _) ← read line s.left
      let (right, last) ← read (line + s.newlines) s.right
      return some (.operation left s.operator right, last) := by
  unfold operation?
  rw [hs]
  refine Logged.bind_congr_of_ok ?_
  rintro ⟨left, reached⟩ h
  dsimp only
  rw [Nat.max_eq_right (reached_le_of_split? hr hs h)]

theorem operation?_located (length line : Nat) (ts : List Token) :
    Located file ⟨ts, line⟩ (fun r => ∀ p, r = some p → Between line (line + Token.newlines ts) p)
      (operation? read length line ts) := by
  cases hs : split? length ts with
  | none =>
    unfold operation?
    rw [hs]
    exact .pure fun p hp => by cases hp
  | some s =>
    obtain ⟨k, -, hop, hsleft, hsright, hn⟩ := exists_operator_of_split? hs
    rw [operation?_eq_of_split? hr hs]
    have hleft : Unread.Holds ⟨ts, line⟩ ⟨s.left, line⟩ := by
      obtain ⟨bs, -, he, -⟩ := Token.exists_eq_trimEnd (ts.take length)
      refine ⟨[], bs ++ ts.drop length, ?_, rfl⟩
      rw [hsleft, List.nil_append, ← List.append_assoc, ← he, List.take_append_drop]
    have hright : Unread.Reaches ⟨ts, line⟩ ⟨s.right, line + s.newlines⟩ := by
      obtain ⟨hk, hop⟩ := List.getElem?_eq_some_iff.1 hop
      refine ⟨ts.take (k + 1), ?_, ?_⟩
      · rw [hsright, List.take_append_drop]
      · rw [List.take_succ_eq_append_getElem hk, hop, Token.newlines_append, hn]
        rfl
    have hlast := hright.last_eq
    have htrim := Token.newlines_trimEnd_le s.right
    refine ((hr _ _).within hleft).bind ?_
    rintro ⟨e, m⟩ -
    refine ((hr _ _).within hright.holds).bind ?_
    rintro ⟨e', k⟩ ⟨hk, hk'⟩
    refine .pure ?_
    rintro _ ⟨⟩
    dsimp only at hk hk' hlast
    constructor
    · dsimp only
      omega
    · dsimp only
      omega

theorem orOperation_located (length line : Nat) (ts : List Token) {alone : Reading (Expr × Nat)}
    (ha : Located file ⟨ts, line⟩ (Between line (line + Token.newlines ts)) alone) :
    Located file ⟨ts, line⟩ (Between line (line + Token.newlines ts))
      (orOperation file read length line ts alone) := by
  unfold orOperation
  refine (operation?_located hr length line ts).bind ?_
  intro r hp
  cases r with
  | some p => exact .pure (hp p rfl)
  | none =>
    refine Meets.bind (P := fun _ => True) ?_ fun _ _ => ha
    unfold requireEnd
    split
    · exact .pure trivial
    · next t rest htrim =>
      have hreach := (Unread.reaches_skip ⟨ts, line⟩ length).trans (Unread.reaches_skipNewlines _)
      refine Located.within hreach.holds ?_
      have hhead : (Unread.skipNewlines (Unread.skip ⟨ts, line⟩ length)).tokens = t :: rest := htrim
      exact .stop ⟨fun t' ht => by cases ht; rw [hhead]; rfl, by simp⟩

/-! ## Brackets -/

theorem readGrouped_located (line : Nat) (rest : List Token) :
    Located file ⟨.opening .round :: rest, line⟩
      (Between line (line + Token.newlines (.opening .round :: rest)))
      (readGrouped file read line (.opening .round :: rest)) := by
  by_cases hc : ∃ inner tail, rest = inner ++ .closing .round :: tail ∧ Scope.Closes .round inner
  · obtain ⟨inner, tail, rfl, hc⟩ := hc
    rw [← Token.enclose_append, readGrouped_eq file read line hc]
    have hinner : Unread.Holds ⟨enclose .round inner ++ tail, line⟩ ⟨inner, line⟩ :=
      Unread.holds_enclose .round [] inner tail line
    have hlast := hinner.last_le
    have htrim := Token.newlines_trimEnd_le inner
    split
    · exact Located.stop (u := ⟨_, line⟩) (Problem.fits_of_silent rfl (by simp) _)
    · refine orOperation_located hr _ _ _ (((hr line inner).within hinner).bind ?_)
      rintro ⟨e, reached⟩ ⟨h, h'⟩
      dsimp only at h h' hlast
      exact .pure ⟨by dsimp only; omega, by dsimp only; omega⟩
  · have hb := bracketed_of_not_closed file line [] (by simp) hc
    unfold readGrouped
    rw [← List.nil_append (.opening .round :: rest), hb]
    exact (unmatched_located line .round [] rest).bind (P := fun _ => False) fun _ h => h.elim

theorem readListing_located (line : Nat) {b : Bracket} (build : List Expr → Expr)
    (before rest : List Token) (hb : ∀ a ∈ before, a ≠ .opening b) :
    Located file ⟨before ++ .opening b :: rest, line⟩
      (Between line (line + Token.newlines (before ++ .opening b :: rest)))
      (readListing file read b build line (before ++ .opening b :: rest)) := by
  by_cases hc : ∃ inner tail, rest = inner ++ .closing b :: tail ∧ Scope.Closes b inner
  · obtain ⟨inner, tail, rfl, hc⟩ := hc
    rw [← Token.enclose_append, ← List.append_assoc, readListing_eq file read line build _ hb hc]
    refine orOperation_located hr _ _ _ ((readList_located hr line hb hc tail).bind ?_)
    rintro es -
    exact .pure ⟨Nat.le_refl _, Nat.le_add_right _ _⟩
  · unfold readListing
    rw [bracketed_of_not_closed file line before hb hc]
    exact (unmatched_located line b before rest).bind (P := fun _ => False) fun _ h => h.elim

/-- The index is read in the line of its first token. -/
theorem readAccess_located (line : Nat) (name : String) {breaks : List Token} (rest : List Token)
    (hb : Blank breaks) :
    Located file ⟨.ident name :: breaks ++ .opening .square :: rest, line⟩
      (Between line (line + Token.newlines (.ident name :: breaks ++ .opening .square :: rest)))
      (readAccess file read name line (.ident name :: breaks ++ .opening .square :: rest)) := by
  by_cases hc : ∃ inner tail, rest = inner ++ .closing .square :: tail ∧ Scope.Closes .square inner
  · obtain ⟨inner, tail, rfl, hc⟩ := hc
    rw [← Token.enclose_append, ← List.append_assoc, readAccess_eq file read line name hb hc]
    refine orOperation_located hr _ _ _ ?_
    have htake : (.ident name :: breaks ++ enclose .square inner ++ tail).take
        ((Token.ident name :: breaks).length + 1) = .ident name :: breaks ++ [.opening .square] := by
      have hshape : .ident name :: breaks ++ enclose .square inner ++ tail
          = (.ident name :: breaks ++ [.opening .square]) ++ (inner ++ .closing .square :: tail) := by
        simp [enclose]
      rw [hshape, List.take_left' (by simp)]
    rw [htake]
    have hinner := Unread.holds_enclose .square (.ident name :: breaks) inner tail line
    have hindex := hinner.trans (Unread.holds_trim inner _)
    have hlast := hindex.last_le
    have htrim := Token.newlines_trimEnd_le (Token.trim inner)
    dsimp only
    split
    · exact (Located.stop (Problem.fits_of_silent rfl (by simp) _)).within hinner
    · refine ((hr _ _).within hindex).bind ?_
      rintro ⟨e, reached⟩ ⟨h, h'⟩
      dsimp only at h h' hlast
      exact .pure ⟨by dsimp only; omega, by dsimp only; omega⟩
  · unfold readAccess
    rw [bracketed_of_not_closed file line _ (hb.ident_ne_opening name .square) hc]
    exact (unmatched_located line .square _ rest).bind (P := fun _ => False) fun _ h => h.elim

/-! ## Prefixes and atoms -/

theorem readPrefixed_located (line : Nat) {t : Token} (ht : t ≠ .newline) (op : String)
    (rest : List Token) :
    Located file ⟨t :: rest, line⟩ (Between line (line + Token.newlines (t :: rest)))
      (readPrefixed file read op line (t :: rest)) := by
  have hzero : Token.newlines [t] = 0 := by
    simp [Token.newlines, Token.isNewline_eq_false_iff, ht]
  cases rest with
  | nil => exact Located.stop (u := ⟨_, line⟩) ⟨by simp [Problem.shown?, Problem.token?], by simp⟩
  | cons t' rest =>
    have hrest : Unread.Reaches ⟨t :: t' :: rest, line⟩ ⟨t' :: rest, line⟩ :=
      ⟨[t], rfl, by rw [hzero]; rfl⟩
    have hlast := hrest.last_eq
    have htrim := Token.newlines_trimEnd_le (t' :: rest)
    refine ((hr line (t' :: rest)).within hrest.holds).bind ?_
    rintro ⟨e, reached⟩ ⟨h, h'⟩
    dsimp only at h h' hlast
    exact .pure ⟨by dsimp only; omega, by dsimp only; omega⟩

end

/-! ## Strings -/

/-- What is wrong in an interpolation of one line is wrong in that line. -/
theorem interpolated_meets {text : List Char}
    (hr : ∀ (line : Nat) (ts : List Token), Located file ⟨ts, line⟩ (fun _ => True) (read line ts))
    (i : Interpolation) :
    Meets (fun f => '\n' ∉ text → f.file = file ∧ f.line = line) (fun _ => True)
      (interpolated file read line text i) := by
  unfold interpolated
  split
  · exact .fail fun _ => ⟨rfl, rfl⟩
  · have hin (htext : '\n' ∉ text) : '\n' ∉ (text.take i.closing).drop (i.opening + 1) :=
      fun hm => htext (List.mem_of_mem_take (List.mem_of_mem_drop hm))
    have hlexed : Meets (fun f => '\n' ∉ text → f.file = file ∧ f.line = line)
        (fun ts => '\n' ∉ text → (∀ t ∈ ts, t.OneLine) ∧ ∀ t ∈ ts, t ≠ .newline)
        (Reading.tokens file line ((text.take i.closing).drop (i.opening + 1))) := by
      constructor
      · intro n ts h htext
        have hscan := ((Logged.yields_tokens _ _ _ _ _).1 h).2
        exact ⟨Lexer.oneLine_of_scan hscan, Lexer.ne_newline_of_scan (hin htext) hscan⟩
      · intro f h htext
        have hscan := (Logged.faults_tokens _ _ _ _).1 h
        obtain ⟨hfile, -, hline⟩ := Lexer.fault_of_scan hscan
        exact ⟨hfile, hline (hin htext)⟩
      · exact Logged.ne_noList_tokens file line _
    refine hlexed.bind ?_
    rintro ts hts
    refine Meets.bind (P := fun _ => True) ?_ fun _ _ => .pure trivial
    exact (hr line ts).mono (fun f h htext => Fault.Lies.line_eq h (hts htext).1 (hts htext).2)
      fun _ => id

theorem parts_meets (text : List Char) (line : Nat)
    (hr : ∀ (line : Nat) (ts : List Token), Located file ⟨ts, line⟩ (fun _ => True) (read line ts))
    (start : Nat) (ranges : List Interpolation) :
    Meets (fun f => '\n' ∉ text → f.file = file ∧ f.line = line) (fun _ => True)
      (parts file read line text start ranges) := by
  induction ranges generalizing start with
  | nil => exact .pure trivial
  | cons i rest ih =>
    rw [parts_cons]
    refine (interpolated_meets hr i).bind ?_
    rintro e -
    refine (ih _).bind ?_
    rintro es -
    exact .pure trivial

theorem readString_located (depth line : Nat) (raw : String) (rest : List Token)
    (hr : ∀ (line : Nat) (ts : List Token),
      Located file ⟨ts, line⟩ (fun _ => True) (Expr.read file depth line ts)) :
    Located file ⟨.string raw :: rest, line⟩ (fun _ => True)
      (readString file (Expr.read file depth) line raw) := by
  unfold readString
  split
  · exact .pure trivial
  · next ranges hranges =>
    refine Meets.map (P := fun _ => True) ?_ fun _ _ => trivial
    have hparts := parts_meets raw.toList line hr 0 (Interpolation.ranges raw.toList)
    refine ⟨fun _ => trivial, ?_, hparts.list⟩
    intro f hf hone
    obtain ⟨hfile, hline⟩ := hparts.fault hf (hone (.string raw) (by simp) raw rfl)
    obtain ⟨i, hi, hin⟩ := exists_of_parts_faults hf
    refine ⟨hfile, _, .refl _, hline, Or.inr ⟨raw, rfl, depth, i, hi, ?_⟩⟩
    rw [hfile, hline]
    exact hin

/-! ## Levels -/

/-- A leftover after an atom stands right behind it, in the same line. -/
theorem readAtom_located
    (hr : ∀ (line : Nat) (ts : List Token), Located file ⟨ts, line⟩
      (Between (line + Token.leadingNewlines ts) (line + Token.newlines (Token.trimEnd ts)))
      (read line ts))
    {t : Token} {kind : Atom} {text : String} (line : Nat) (rest : List Token)
    (ht : t.atom? = some (kind, text))
    (hs : t = .string text → Located file ⟨t :: rest, line⟩ (fun _ => True)
      (readString file read line text)) :
    Located file ⟨t :: rest, line⟩ (Between line (line + Token.newlines (t :: rest)))
      (readAtom file read kind text line (t :: rest)) := by
  unfold readAtom
  refine (operation?_located hr 1 line (t :: rest)).bind ?_
  intro r hp
  cases r with
  | some p => exact .pure (hp p rfl)
  | none =>
    dsimp only
    split
    · next t' rest' h =>
      cases h
      have hzero : Token.newlines [t] = 0 := by
        simp [Token.newlines, Token.isNewline_eq_false_iff, Token.ne_newline_of_atom? ht]
      have hreach : Unread.Reaches ⟨t :: t' :: rest', line⟩ ⟨t' :: rest', line⟩ :=
        ⟨[t], rfl, by rw [hzero]; rfl⟩
      have hfits : (Problem.leftover t').Fits (t' :: rest') :=
        ⟨fun t ht => by cases ht; rfl, by simp⟩
      exact (Located.stop hfits).within hreach.holds
    · split
      · refine (hs (Token.eq_string_of_atom? ht)).bind ?_
        rintro e -
        exact .pure ⟨Nat.le_refl _, Nat.le_add_right _ _⟩
      · exact .pure ⟨Nat.le_refl _, Nat.le_add_right _ _⟩

theorem readConstruct_located {depth : Nat}
    (hr : ∀ (line : Nat) (ts : List Token), Located file ⟨ts, line⟩
      (Between (line + Token.leadingNewlines ts) (line + Token.newlines (Token.trimEnd ts)))
      (Expr.read file depth line ts))
    (line : Nat) {ts : List Token} {c : Construct} (h : Construct.Leads ts c) :
    Located file ⟨ts, line⟩ (Between line (line + Token.newlines ts))
      (readConstruct file (Expr.read file depth) line ts c) := by
  cases h with
  | parentheses rest => exact readGrouped_located hr line rest
  | prefixed rest h =>
    refine readPrefixed_located hr line ?_ _ rest
    rintro rfl
    cases h
  | list rest => exact readListing_located hr line _ [] rest (by simp)
  | call name rest h =>
    exact readListing_located hr line _ _ rest (h.ident_ne_opening name .round)
  | access name rest h => exact readAccess_located hr line name rest h
  | atom rest h =>
    refine readAtom_located hr line rest h ?_
    rintro rfl
    exact readString_located depth line _ rest fun line ts => (hr line ts).mono
      (fun _ => id) fun _ _ => trivial

/-- Every reading of an expression is located: it ends between the line of its first token and that
of its last, and its faults lie among its tokens. -/
theorem located_of_read (file : String) (depth line : Nat) (ts : List Token) :
    Located file ⟨ts, line⟩
      (Between (line + Token.leadingNewlines ts) (line + Token.newlines (Token.trimEnd ts)))
      (Expr.read file depth line ts) := by
  induction depth generalizing line ts with
  | zero => exact .tooDeep
  | succ depth ih =>
    obtain ⟨_, _, -, -, -, ht⟩ := Token.exists_eq_trim ts
    show Located _ _ _ (readStep file (Expr.read file depth) line ts)
    rw [readStep_trim]
    refine Located.within (Unread.holds_trim ts line) ?_
    cases hc : Construct.of? (Token.trim ts) with
    | none =>
      unfold readStep
      dsimp only
      rw [ht.trimStart_eq, ht.trimEnd_eq, ht.leadingNewlines_eq, Nat.add_zero, hc]
      exact Located.stop (u := ⟨_, _⟩) ⟨fun t h => h, by simp⟩
    | some c =>
      have hne : Token.trim ts ≠ [] := by
        intro hnil
        rw [hnil] at hc
        cases hc
      rw [readStep_of_trimmed ht hc, Token.newlines_trimEnd hne, ← Nat.add_assoc]
      exact readConstruct_located ih _ (Construct.leads_of_of? ht hc)

/-! ## Lines reached -/

/-- The line that reading an expression comes to lies behind all line breaks in front of the tokens,
and in front of all that stand behind them.  In particular reading a left operand never comes beyond
the line of the operator, so the right operand is read in that line, wherever the operator is. -/
theorem read_reaches (file : String) (depth : Nat) :
    (∀ line ts e reached, (Expr.read file depth line ts).outcome = .ok (e, reached) →
        (∀ breaks rest, ts = breaks ++ rest → Blank breaks → line + breaks.length ≤ reached) ∧
        ∀ front breaks, ts = front ++ breaks → Blank breaks →
          reached ≤ line + Token.newlines front) ∧
      ∀ length line ts s, split? length ts = some s →
        ∃ k, length ≤ k ∧ ts[k]? = some (.operator s.operator) ∧
          s.left = Token.trimEnd (ts.take length) ∧ s.right = ts.drop (k + 1) ∧
          (∀ left reached, (Expr.read file depth line s.left).outcome = .ok (left, reached) →
            reached ≤ line + Token.newlines (ts.take k)) ∧
          operation? (Expr.read file depth) length line ts = do
            let (left, _) ← Expr.read file depth line s.left
            let (right, last) ← Expr.read file depth (line + Token.newlines (ts.take k)) s.right
            return some (.operation left s.operator right, last) := by
  constructor
  · intro line ts e reached h
    obtain ⟨hfirst, hlast⟩ := (located_of_read file depth line ts).result ⟨h, rfl⟩
    dsimp only at hfirst hlast
    constructor
    · rintro breaks rest rfl hb
      rw [hb.leadingNewlines_append] at hfirst
      omega
    · rintro front breaks rfl hb
      rw [hb.trimEnd_append] at hlast
      have htrim := Token.newlines_trimEnd_le front
      omega
  · intro length line ts s hs
    have hr := located_of_read file depth
    obtain ⟨k, hk, hop, hleft, hright, hn⟩ := exists_operator_of_split? hs
    refine ⟨k, hk, hop, hleft, hright, ?_⟩
    rw [← hn]
    exact ⟨fun left reached => reached_le_of_split? hr hs, operation?_eq_of_split? hr hs line⟩

/-- Lines are counted in front of an expression, in an index and on both sides of an operator. -/
theorem read_reaches_operator :
    let left : List Token :=
      [.ident "a", .opening .square, .newline, .integer "1", .closing .square]
    let ts : List Token := left ++ [.newline, .operator "+", .newline, .ident "b"]
    (∃ e reached,
      (Expr.read "<string>" 3 1 ([.newline] ++ ts ++ [.newline])).outcome = .ok (e, reached) ∧
        1 + 1 ≤ reached ∧ reached ≤ 1 + Token.newlines ([.newline] ++ ts)) ∧
      split? 5 ts = some ⟨left, "+", [.newline, .ident "b"], 2⟩ ∧
      ∃ e reached, (Expr.read "<string>" 2 2 left).outcome = .ok (e, reached) ∧
        reached ≤ 2 + 2 := by
  intro left ts
  have hblank : Blank [.newline] := by simp [Blank]
  have hts : (Expr.read "<string>" 3 1 ([.newline] ++ ts ++ [.newline])).outcome
      = .ok (.operation (.access "a" (.atom .integer "1")) "+" (.atom .identifier "b"), 5) := by cbv
  have hleft : (Expr.read "<string>" 2 2 left).outcome
      = .ok (.access "a" (.atom .integer "1"), 3) := by cbv
  have hsplit : split? 5 ts = some ⟨left, "+", [.newline, .ident "b"], 2⟩ := by rfl
  obtain ⟨hlines, -⟩ := read_reaches "<string>" 3
  obtain ⟨hfirst, hlast⟩ := hlines _ _ _ _ hts
  obtain ⟨-, hsplits⟩ := read_reaches "<string>" 2
  refine ⟨⟨_, _, hts, hfirst [.newline] (ts ++ [.newline]) rfl hblank, hlast _ _ rfl hblank⟩,
    hsplit, _, _, hleft, ?_⟩
  obtain ⟨k, -, -, -, hright, hreached, -⟩ := hsplits 5 2 ts _ hsplit
  have hk := hreached _ _ hleft
  have hdrop : (ts.drop (k + 1)).length = 2 := by rw [← hright]; rfl
  rw [List.length_drop] at hdrop
  obtain rfl : k = 6 := by
    have hlength : ts.length = 9 := rfl
    omega
  exact hk

end Expr

end ModelScript
