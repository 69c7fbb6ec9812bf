import Mathlib.Data.List.Forall2
import ModelScript.Proofs.Scope.Unbroken

/-!
# Lines with more or fewer blank lines between them

`Respaced ts us` says that the same tokens stand in `ts` and in `us`, with line breaks between the
same of them, though perhaps not as many: a run of line breaks may be longer or shorter, but it
neither vanishes nor appears.  `collapse` shortens each run to one.  What is found by looking for
tokens other than line breaks is found at corresponding places: brackets are closed by the same
tokens (`Respaced.closes_iff`), and commas cut the same segments (`Respaced.segments`).
-/

namespace ModelScript

open Token (Blank unbroken trimStart trimEnd trim enclose)

/-! ## Respaced tokens -/

/-- Each run of line breaks shortened to a single one. -/
def Token.collapse : List Token → List Token
  | [] => []
  | t :: ts => if t = .newline ∧ ts.head? = some .newline then collapse ts else t :: collapse ts

/-- The same tokens, with runs of line breaks of any length in the same places. -/
inductive Respaced : List Token → List Token → Prop
  | nil : Respaced [] []
  | token {t : Token} {ts us : List Token} (ht : t ≠ .newline) (h : Respaced ts us) :
    Respaced (t :: ts) (t :: us)
  | breaks {as bs ts us : List Token} (ha : Blank as) (hb : Blank bs) (h : Respaced ts us) :
    Respaced (.newline :: (as ++ ts)) (.newline :: (bs ++ us))

namespace Respaced

variable {ts us vs ws : List Token} {t : Token}

theorem cons (t : Token) (h : Respaced ts us) : Respaced (t :: ts) (t :: us) := by
  by_cases ht : t = .newline
  · subst ht
    exact .breaks .nil .nil h
  · exact .token ht h

theorem refl (ts : List Token) : Respaced ts ts := by
  induction ts with
  | nil => exact .nil
  | cons t ts ih => exact ih.cons t

theorem symm (h : Respaced ts us) : Respaced us ts := by
  induction h with
  | nil => exact .nil
  | token ht _ ih => exact .token ht ih
  | breaks ha hb _ ih => exact .breaks hb ha ih

theorem append (h : Respaced ts us) (h' : Respaced vs ws) : Respaced (ts ++ vs) (us ++ ws) := by
  induction h with
  | nil => exact h'
  | token ht _ ih => exact .token ht ih
  | breaks ha hb _ ih =>
    rw [List.cons_append, List.append_assoc, List.cons_append, List.append_assoc]
    exact .breaks ha hb ih

theorem newline_cons (h : Respaced (.newline :: ts) us) :
    Respaced (.newline :: .newline :: ts) us := by
  cases h with
  | token ht _ => exact absurd rfl ht
  | @breaks as bs ts us ha hb h =>
    have ha' : Blank (.newline :: as) := (Token.blank_cons _ _).2 ⟨rfl, ha⟩
    exact .breaks ha' hb h

/-- What is left when the runs of line breaks are shortened is respaced. -/
theorem collapse (ts : List Token) : Respaced ts (Token.collapse ts) := by
  induction ts with
  | nil => exact .nil
  | cons t ts ih =>
    unfold Token.collapse
    split
    · next h =>
      obtain ⟨rfl, hhead⟩ := h
      obtain ⟨ts, rfl⟩ := List.head?_eq_some_iff.1 hhead
      exact ih.newline_cons
    · exact ih.cons t

/-! ## Pieces -/

theorem head?_eq (h : Respaced ts us) : ts.head? = us.head? := by
  cases h <;> rfl

theorem eq_nil_iff (h : Respaced ts us) : ts = [] ↔ us = [] := by
  cases h <;> simp

theorem exists_of_cons (ht : t ≠ .newline) (h : Respaced (t :: ts) us) :
    ∃ us', us = t :: us' ∧ Respaced ts us' := by
  cases h with
  | token _ h => exact ⟨_, rfl, h⟩
  | breaks => exact absurd rfl ht

/-- Any token but a line break stands between corresponding pieces. -/
theorem exists_of_append_cons (ht : t ≠ .newline) (h : Respaced (ts ++ t :: vs) us) :
    ∃ ts' vs', us = ts' ++ t :: vs' ∧ Respaced ts ts' ∧ Respaced vs vs' := by
  generalize hw : ts ++ t :: vs = ws at h
  induction h generalizing ts with
  | nil => simp at hw
  | @token a ws us ha h ih =>
    cases ts with
    | nil =>
      obtain ⟨rfl, rfl⟩ := List.cons.inj hw
      exact ⟨[], us, rfl, .nil, h⟩
    | cons a' ts =>
      obtain ⟨rfl, htail⟩ := List.cons.inj hw
      obtain ⟨ts', vs', rfl, hts, hvs⟩ := ih htail
      exact ⟨a' :: ts', vs', rfl, .token ha hts, hvs⟩
  | @breaks as bs ws us ha hb h ih =>
    cases ts with
    | nil => exact absurd (List.cons.inj hw).1 ht
    | cons a ts =>
      obtain ⟨rfl, htail⟩ := List.cons.inj hw
      -- The run of line breaks ends in front of the token.
      obtain ⟨rest, rfl, hrest⟩ : ∃ rest, ts = as ++ rest ∧ rest ++ t :: vs = ws := by
        rcases List.append_eq_append_iff.1 htail with ⟨mid, has, hmid⟩ | ⟨rest, hts, hws⟩
        · cases mid with
          | nil => exact ⟨[], by simpa using has.symm, hmid⟩
          | cons m mid =>
            obtain ⟨rfl, -⟩ := List.cons.inj hmid
            exact absurd (ha t (by simp [has])) ht
        · exact ⟨rest, hts, hws.symm⟩
      obtain ⟨ts', vs', rfl, hts, hvs⟩ := ih hrest
      exact ⟨.newline :: (bs ++ ts'), vs', by simp, .breaks ha hb hts, hvs⟩

theorem unbroken_eq (h : Respaced ts us) : unbroken ts = unbroken us := by
  induction h with
  | nil => rfl
  | token ht _ ih => rw [Token.unbroken_cons_of_ne ht, Token.unbroken_cons_of_ne ht, ih]
  | breaks ha hb _ ih =>
    have hskip (ts : List Token) : unbroken (.newline :: ts) = unbroken ts := rfl
    rw [hskip, hskip, Token.unbroken_append, Token.unbroken_append, ha.unbroken_eq, hb.unbroken_eq,
      ih]

theorem blank_iff (h : Respaced ts us) : Blank ts ↔ Blank us := by
  rw [← Token.unbroken_eq_nil_iff, ← Token.unbroken_eq_nil_iff, h.unbroken_eq]

theorem significant?_eq (h : Respaced ts us) : Token.significant? ts = Token.significant? us := by
  rw [← Token.significant?_unbroken ts, ← Token.significant?_unbroken us, h.unbroken_eq]

/-! ## Ends -/

theorem of_blank (hts : Blank ts) (hus : Blank us) (hne : ts = [] ↔ us = []) : Respaced ts us := by
  cases ts with
  | nil => rw [hne.1 rfl]; exact .nil
  | cons t ts =>
    obtain ⟨u, us, rfl⟩ := List.exists_cons_of_ne_nil (mt hne.2 (by simp))
    obtain ⟨rfl, ha⟩ := (Token.blank_cons _ _).1 hts
    obtain ⟨rfl, hb⟩ := (Token.blank_cons _ _).1 hus
    have := Respaced.breaks ha hb .nil
    rwa [List.append_nil, List.append_nil] at this

theorem reverse (h : Respaced ts us) : Respaced ts.reverse us.reverse := by
  induction h with
  | nil => exact .nil
  | token ht _ ih =>
    rw [List.reverse_cons, List.reverse_cons]
    exact ih.append (.token ht .nil)
  | @breaks as bs ts us ha hb _ ih =>
    have hrun {as : List Token} (ha : Blank as) : Blank (as.reverse ++ [.newline]) := by
      rw [← List.reverse_cons, Token.blank_reverse, Token.blank_cons]
      exact ⟨rfl, ha⟩
    rw [List.reverse_cons, List.reverse_cons, List.reverse_append, List.reverse_append,
      List.append_assoc, List.append_assoc]
    exact ih.append (.of_blank (hrun ha) (hrun hb) (by simp))

theorem trimStart (h : Respaced ts us) : Respaced (trimStart ts) (trimStart us) := by
  induction h with
  | nil => exact .nil
  | token ht h _ =>
    rw [Token.trimStart_cons_of_ne ht, Token.trimStart_cons_of_ne ht]
    exact .token ht h
  | breaks ha hb _ ih =>
    rw [Token.trimStart_newline_cons, Token.trimStart_newline_cons, ha.trimStart_append,
      hb.trimStart_append]
    exact ih

theorem trimEnd (h : Respaced ts us) : Respaced (trimEnd ts) (trimEnd us) := by
  rw [Token.trimEnd_eq, Token.trimEnd_eq]
  exact h.reverse.trimStart.reverse

theorem trim (h : Respaced ts us) : Respaced (trim ts) (trim us) := h.trimStart.trimEnd

/-! ## Scopes -/

open Scope (Closes segments)

theorem closes_iff (b : Bracket) (h : Respaced ts us) : Closes b ts ↔ Closes b us := by
  rw [← Scope.closes_unbroken b ts, ← Scope.closes_unbroken b us, h.unbroken_eq]

/-- A bracket in front of the tokens is closed among both of them or among neither. -/
theorem exists_closes_iff (b : Bracket) (h : Respaced ts us) :
    (∃ inner tail, ts = inner ++ .closing b :: tail ∧ Closes b inner) ↔
      ∃ inner tail, us = inner ++ .closing b :: tail ∧ Closes b inner := by
  rw [← Scope.exists_closes_unbroken b ts, ← Scope.exists_closes_unbroken b us, h.unbroken_eq]

theorem enclose (b : Bracket) (h : Respaced ts us) : Respaced (enclose b ts) (enclose b us) :=
  (h.append (.refl [.closing b])).cons _

/-- Putting corresponding tokens in front of corresponding segments. -/
theorem modifyHead {f g : List Token → List Token} {xs ys : List (List Token)}
    (hf : ∀ ts us, Respaced ts us → Respaced (f ts) (g us)) (h : List.Forall₂ Respaced xs ys) :
    List.Forall₂ Respaced (xs.modifyHead f) (ys.modifyHead g) := by
  cases h with
  | nil => exact .nil
  | cons h hs => exact .cons (hf _ _ h) hs

theorem segments (depth : Int) (h : Respaced ts us) :
    List.Forall₂ Respaced (segments depth ts) (segments depth us) := by
  induction h generalizing depth with
  | nil => exact .cons .nil .nil
  | @token t ts us ht _ ih =>
    have hgo (d : Int) := modifyHead (fun ts us => Respaced.cons t) (ih d)
    rw [Scope.segments, Scope.segments]
    split
    · exact hgo _
    · split
      · exact hgo _
      · split
        · exact .cons .nil (ih depth)
        · exact hgo _
  | breaks ha hb _ ih =>
    rw [Scope.segments_newline_cons, Scope.segments_newline_cons,
      Scope.segments_blank_append depth ha, Scope.segments_blank_append depth hb,
      List.modifyHead_modifyHead, List.modifyHead_modifyHead]
    exact modifyHead (fun ts us => .breaks ha hb) (ih depth)

end Respaced

end ModelScript
