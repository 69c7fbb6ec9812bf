import Mathlib
import ModelScript.Build.Compile
import ModelScript.Defaults
import ModelScript.Proofs.Expression.Dropping
import ModelScript.Proofs.Statement.Ledger

/-!
# Nesting in files that are read

The search for a scope counts one shape of bracket, the cut of a value two shapes in one depth, and
the only element of a list may be left out with whatever is wrong in it.  The ledger of a reading
shows that nothing else lets a bracket escape: of a file that is read, only elements that the reader
refused, no more of them than there are warnings, have to be deleted for all brackets to be nested
(`exists_emptied_of_readWithin`).
-/

namespace ModelScript

open Token (enclose)
open Scope (Neutral nested)
open Logged (yields_bind yields_pure)

/-- What was left out of a ledger can be deleted, and then its brackets are nested. -/
theorem Accounted.exists_dropping {n : Nat} {ts : List Token} {ds : List Datum}
    (h : Accounted n ts ds) : ∃ drops us, Dropping n ts drops us ∧ Neutral us := by
  induction h with
  | nil => exact ⟨[], [], .refl 0 [], .nil⟩
  | @token t _ _ ho hc => exact ⟨[], [t], .refl 0 [t], .token ho hc⟩
  | @string _ _ _ n raw => exact ⟨[], [.string raw], .refl n _, .token (by simp) (by simp)⟩
  | scope b _ ih =>
    obtain ⟨drops, us, hr, hn⟩ := ih
    exact ⟨drops, enclose b us, hr.between [.opening b] [.closing b], hn.enclose b⟩
  | @dropped n b ts hb hc h => exact ⟨[ts], enclose b [], .drop hb hc h, .enclose b .nil⟩
  | append _ _ ih ih' =>
    obtain ⟨drops, us, hr, hn⟩ := ih
    obtain ⟨drops', us', hr', hn'⟩ := ih'
    exact ⟨drops ++ drops', us ++ us', hr.append hr', hn.append hn'⟩

/-- Reading a text as tokens warns of nothing. -/
theorem eq_of_tokens {file : String} {line n : Nat} {source : List Char} {ts : List Token}
    (h : (Reading.tokens file line source).Yields n ts) :
    n = 0 ∧ tokenize file line source = .ok ts := by
  unfold Reading.tokens at h
  split at h
  · exact absurd h (Logged.not_yields_fail _ _ _)
  · next tokens ht =>
    obtain ⟨ho, rfl⟩ := h
    cases ho
    exact ⟨rfl, ht⟩

/-- A file that is read, at whatever depth: its brackets are nested once some elements that the
reader refused are deleted, no more than there are warnings, and as they stand if there are none. -/
theorem exists_emptied_of_readWithin {depth n : Nat} {file : String} {source : List Char}
    {body : List Statement} (h : (readWithin depth file source).Yields n body) :
    ∃ ts, tokenize file 1 source = .ok ts ∧
      (∃ drops us, Dropping n ts drops us ∧ nested us = true) ∧ (n = 0 → nested ts = true) := by
  obtain ⟨m, j, ts, ht, h1, rfl⟩ := (yields_bind _ _ _ _).1 h
  obtain ⟨rfl, htokens⟩ := eq_of_tokens ht
  obtain ⟨m, j, ⟨body', last⟩, hb, h2, rfl⟩ := (yields_bind _ _ _ _).1 h1
  obtain ⟨rfl, -⟩ := (yields_pure _ _ _).1 h2
  rw [Nat.zero_add, Nat.add_zero]
  obtain ⟨drops, us, hr, hn⟩ := (accounted_of_parse hb).exists_dropping
  refine ⟨ts, htokens, ⟨drops, us, hr, hn.nested⟩, fun hzero => ?_⟩
  subst hzero
  obtain rfl := List.eq_nil_of_length_eq_zero (Nat.le_zero.1 hr.length_le)
  cases hr.emptied
  exact hn.nested

set_option maxRecDepth 20000 in
/-- The only element of a call is left out with a bracket that nothing closes. -/
theorem exists_emptied_of_readWithin_call :
    (readWithin 5 "call" "f([)".toList).Yields 1 [.bare (.call "f" [])] ∧
      ∃ ts, tokenize "call" 1 "f([)".toList = .ok ts ∧
        (∃ drops us, Dropping 1 ts drops us ∧ nested us = true) ∧ (1 = 0 → nested ts = true) := by
  have h : (readWithin 5 "call" "f([)".toList).Yields 1 [.bare (.call "f" [])] :=
    ⟨by cbv, by cbv⟩
  exact ⟨h, exists_emptied_of_readWithin h⟩

set_option maxRecDepth 20000 in
/-- Not every file that is read has its brackets nested. -/
theorem not_forall_nested_of_readFile :
    ¬ ∀ (source : List Char) (body : List Statement),
      (readFile "<string>" source).outcome = .ok body →
        ∃ ts, tokenize "<string>" 1 source = .ok ts ∧ nested ts = true := by
  intro hall
  have hread : (readFile "<string>" "f([)".toList).outcome = .ok [.bare (.call "f" [])] := by cbv
  have htokens : tokenize "<string>" 1 "f([)".toList
      = .ok [.ident "f", .opening .round, .opening .square, .closing .round] := by cbv
  obtain ⟨ts, hts, hn⟩ := hall _ _ hread
  rw [htokens] at hts
  cases hts
  exact absurd hn (by decide)

end ModelScript
