import ModelScript.Proofs.Scope.Balanced
import ModelScript.Proofs.Token.Blank

/-!
# Scopes without their line breaks

A line break opens and closes nothing, so brackets belong together in the same way, and commas
separate the same segments, when all line breaks are left out.
-/

namespace ModelScript

open Token (Blank Trimmed unbroken enclose)

/-! ## Brackets -/

theorem Token.unbroken_enclose (b : Bracket) (ts : List Token) :
    unbroken (enclose b ts) = enclose b (unbroken ts) := by
  unfold enclose
  rw [List.cons_append, Token.unbroken_cons_of_ne (by simp), Token.unbroken_append]
  rfl

theorem Token.unbroken_ident_append_enclose (name : String) {breaks : List Token} (hb : Blank breaks)
    (b : Bracket) (inner : List Token) :
    unbroken (.ident name :: breaks ++ enclose b inner)
      = .ident name :: enclose b (unbroken inner) := by
  rw [List.cons_append, Token.unbroken_cons_of_ne (by simp), Token.unbroken_append, hb.unbroken_eq,
    Token.unbroken_enclose, List.nil_append]

/-- Brackets around tokens, with the line breaks in front of them, between them and behind them. -/
theorem Token.exists_enclose_of_unbroken {b : Bracket} {ts us : List Token}
    (h : unbroken ts = enclose b us) :
    ∃ breaks inner tail, Blank breaks ∧ Blank tail ∧ ts = breaks ++ (enclose b inner ++ tail) ∧
      unbroken inner = us := by
  rw [enclose, List.cons_append] at h
  obtain ⟨breaks, rest, hb, rfl, hrest⟩ := Token.exists_cons_of_unbroken h
  obtain ⟨inner, tail, rfl, hinner, htail⟩ := Token.exists_append_cons_of_unbroken hrest
  exact ⟨breaks, inner, tail, hb, (Token.unbroken_eq_nil_iff tail).1 htail,
    by rw [Token.enclose_append], hinner⟩

theorem Token.Trimmed.eq_enclose_of_unbroken {b : Bracket} {ts us : List Token} (ht : Trimmed ts)
    (h : unbroken ts = enclose b us) : ∃ inner, ts = enclose b inner ∧ unbroken inner = us := by
  obtain ⟨breaks, inner, tail, hb, htail, rfl, hinner⟩ := Token.exists_enclose_of_unbroken h
  obtain rfl := ht.eq_nil_of_blank_head hb
  rw [List.nil_append] at ht
  obtain rfl := ht.eq_nil_of_blank_tail htail
  exact ⟨inner, by simp, hinner⟩

theorem Token.Trimmed.eq_ident_enclose_of_unbroken {name : String} {b : Bracket}
    {ts us : List Token} (ht : Trimmed ts) (h : unbroken ts = .ident name :: enclose b us) :
    ∃ breaks inner, Blank breaks ∧ ts = .ident name :: breaks ++ enclose b inner ∧
      unbroken inner = us := by
  obtain ⟨rest, rfl, hrest⟩ := ht.exists_cons_of_unbroken h
  obtain ⟨breaks, inner, tail, hb, htail, rfl, hinner⟩ := Token.exists_enclose_of_unbroken hrest
  rw [← List.append_assoc, ← List.cons_append] at ht
  obtain rfl := ht.eq_nil_of_blank_tail htail
  exact ⟨breaks, inner, hb, by simp, hinner⟩

namespace Scope

/-! ## Balanced brackets and commas -/

theorem Balanced.of_blank (commas : Bool) {ts : List Token} (h : Blank ts) :
    Balanced commas ts := by
  induction ts with
  | nil => exact .nil commas
  | cons t ts ih =>
    obtain ⟨rfl, hts⟩ := (Token.blank_cons _ _).1 h
    exact .append (.token commas (t := .newline) (by simp) (by simp) (by simp)) (ih hts)

/-- Brackets that belong together without the line breaks do with them. -/
theorem Balanced.of_unbroken {commas : Bool} {ts : List Token} (h : Balanced commas (unbroken ts)) :
    Balanced commas ts := by
  generalize hu : unbroken ts = us at h
  induction h generalizing ts with
  | nil commas => exact .of_blank commas ((Token.unbroken_eq_nil_iff ts).1 hu)
  | @token commas t ho hc hcomma =>
    obtain ⟨breaks, rest, hb, rfl, hrest⟩ := Token.exists_cons_of_unbroken hu
    have htoken : Balanced commas [t] := .token commas ho hc hcomma
    have hright := Balanced.of_blank commas ((Token.unbroken_eq_nil_iff rest).1 hrest)
    exact (Balanced.of_blank commas hb).append (htoken.append hright)
  | @append commas xs ys _ _ ih ih' =>
    obtain ⟨as, bs, rfl, ha, hb⟩ := List.filter_eq_append_iff.1 hu
    exact (ih ha).append (ih' hb)
  | @scope commas b xs hb _ ih =>
    obtain ⟨breaks, inner, tail, hbreaks, htail, rfl, hinner⟩ := Token.exists_enclose_of_unbroken hu
    have hscope : Balanced commas (enclose b inner) := .scope commas hb (ih hinner)
    exact (Balanced.of_blank commas hbreaks).append (hscope.append (.of_blank commas htail))

theorem close?_newline_cons (b : Bracket) (depth : Nat) (ts : List Token) :
    close? (.mark (.opening b)) (.mark (.closing b)) depth (.newline :: ts)
      = (· + 1) <$> close? (.mark (.opening b)) (.mark (.closing b)) depth ts := by
  rw [close?, if_neg (by simp [Token.kind]), if_neg (by simp [Token.kind])]

theorem close?_unbroken (b : Bracket) (depth : Nat) (inner : List Token) :
    close? (.mark (.opening b)) (.mark (.closing b)) depth (unbroken inner ++ [.closing b])
        = some (unbroken inner).length ↔
      close? (.mark (.opening b)) (.mark (.closing b)) depth (inner ++ [.closing b])
        = some inner.length := by
  have hsucc (x : Option Nat) (n : Nat) : (· + 1) <$> x = some (n + 1) ↔ x = some n := by
    cases x <;> simp
  induction inner generalizing depth with
  | nil => exact Iff.rfl
  | cons t rest ih =>
    by_cases ht : t = .newline
    · subst ht
      rw [List.cons_append, close?_newline_cons, List.length_cons, hsucc]
      exact ih depth
    · rw [Token.unbroken_cons_of_ne ht, List.cons_append, List.cons_append, close?, close?,
        List.length_cons, List.length_cons]
      split
      · rw [hsucc, hsucc]
        exact ih _
      · split
        · split
          · simp
          · rw [hsucc, hsucc]
            exact ih _
        · rw [hsucc, hsucc]
          exact ih _

theorem closes_unbroken (b : Bracket) (inner : List Token) :
    Closes b (unbroken inner) ↔ Closes b inner := close?_unbroken b 1 inner

/-- A bracket is closed without the line breaks exactly if it is with them. -/
theorem exists_closes_unbroken (b : Bracket) (rest : List Token) :
    (∃ inner tail, unbroken rest = inner ++ .closing b :: tail ∧ Closes b inner) ↔
      ∃ inner tail, rest = inner ++ .closing b :: tail ∧ Closes b inner := by
  constructor
  · rintro ⟨inner, tail, he, hc⟩
    obtain ⟨inner', tail', rfl, rfl, -⟩ := Token.exists_append_cons_of_unbroken he
    exact ⟨inner', tail', rfl, (closes_unbroken b inner').1 hc⟩
  · rintro ⟨inner, tail, rfl, hc⟩
    refine ⟨unbroken inner, unbroken tail, ?_, (closes_unbroken b inner).2 hc⟩
    rw [Token.unbroken_append, Token.unbroken_cons_of_ne (by simp)]

theorem segments_newline_cons (depth : Int) (ts : List Token) :
    segments depth (.newline :: ts) = (segments depth ts).modifyHead (.newline :: ·) := by
  simp [segments, listScopes, Token.kind]

theorem segments_blank_append (depth : Int) {as : List Token} (ha : Blank as) (ts : List Token) :
    segments depth (as ++ ts) = (segments depth ts).modifyHead (as ++ ·) := by
  induction as with
  | nil =>
    rw [List.nil_append]
    cases segments depth ts <;> rfl
  | cons a as ih =>
    obtain ⟨rfl, has⟩ := (Token.blank_cons _ _).1 ha
    rw [List.cons_append, segments_newline_cons, ih has, List.modifyHead_modifyHead]
    rfl

theorem segments_unbroken (depth : Int) (ts : List Token) :
    segments depth (unbroken ts) = (segments depth ts).map unbroken := by
  induction ts generalizing depth with
  | nil => rfl
  | cons t rest ih =>
    have hhead (d : Int) (ht : t ≠ .newline) : (segments d (unbroken rest)).modifyHead (t :: ·)
        = ((segments d rest).modifyHead (t :: ·)).map unbroken := by
      rw [ih]
      obtain ⟨s, ss, hs⟩ := List.exists_cons_of_ne_nil (segments_ne_nil d rest)
      rw [hs, List.map_cons, List.modifyHead_cons, List.modifyHead_cons, List.map_cons,
        Token.unbroken_cons_of_ne ht]
    by_cases ht : t = .newline
    · subst ht
      show segments depth (unbroken rest) = _
      obtain ⟨s, ss, hs⟩ := List.exists_cons_of_ne_nil (segments_ne_nil depth rest)
      rw [segments_newline_cons, ih, hs]
      rfl
    · rw [Token.unbroken_cons_of_ne ht, segments, segments]
      split
      · exact hhead _ ht
      · split
        · exact hhead _ ht
        · split
          · rw [ih]
            rfl
          · exact hhead _ ht

end Scope

end ModelScript
