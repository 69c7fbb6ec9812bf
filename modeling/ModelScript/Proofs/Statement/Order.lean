import Mathlib
import ModelScript.Proofs.Statement.Ledger

/-!
# Nothing is lost, doubled or moved

A file that is read without a warning has nothing left out, so its ledger has one entry for each
token: the values of its tokens are the values of its statements, in the same order
(`flatMap_data_of_parse`).
-/

namespace ModelScript

open Token (enclose)

theorem Token.flatMap_data_enclose (node : String → Expr) (b : Bracket) (ts : List Token) :
    (enclose b ts).flatMap (Token.data node) = ts.flatMap (Token.data node) := by
  simp [enclose, Token.data]

/-- Without warnings, the values of a ledger are those of its tokens. -/
theorem Accounted.flatMap_data {n : Nat} {ts : List Token} {ds : List Datum}
    (h : Accounted n ts ds) (hn : n = 0) (node : String → Expr)
    (hnode : ∀ raw, .string raw ∈ ts → ReadsString raw (node raw)) :
    ts.flatMap (Token.data node) = ds := by
  induction h with
  | nil => rfl
  | @token t node' hs ho hc =>
    rw [List.flatMap_singleton]
    cases t with
    | string raw => exact absurd rfl (hs raw)
    | _ => rfl
  | @string file depth line n raw e h =>
    subst hn
    rw [List.flatMap_singleton, Token.data, (hnode raw (by simp)).unique ⟨file, depth, line, h⟩]
  | scope b h ih =>
    rw [Token.flatMap_data_enclose]
    exact ih hn fun raw hraw => hnode raw (by simp [enclose, hraw])
  | dropped => cases hn
  | append _ _ ih ih' =>
    obtain ⟨rfl, rfl⟩ := Nat.add_eq_zero_iff.1 hn
    rw [List.flatMap_append, ih rfl fun raw hraw => hnode raw (by simp [hraw]),
      ih' rfl fun raw hraw => hnode raw (by simp [hraw])]

/-- A file that is read without a warning: each string literal is read as a node, and the values of
its tokens, string literals by their nodes, are the values read off its statements. -/
theorem flatMap_data_of_parse {depth line last : Nat} {file : String} {ts : List Token}
    {body : List Statement} (h : (parseWithin depth file ⟨ts, line⟩).Yields 0 (body, last)) :
    (∀ raw, .string raw ∈ ts → ∃ e, ReadsString raw e) ∧
      ∀ node : String → Expr, (∀ raw, .string raw ∈ ts → ReadsString raw (node raw)) →
        ts.flatMap (Token.data node) = Statement.listData body :=
  have hacc := accounted_of_parse h
  ⟨fun _ hraw => hacc.exists_readsString rfl hraw, fun node => hacc.flatMap_data rfl node⟩

/-- The change of a variable, with a string literal among its values. -/
theorem flatMap_data_of_parse_change :
    let ts : List Token := [.keyword .make, .ident "x", .keyword .be, .ident "y", .operator "+",
      .ident "f", .opening .round, .string "s", .closing .round]
    let body : List Statement := [.change "x" (.operation (.atom .identifier "y") "+"
      (.call "f" [.atom .string "s"])) none]
    (parseWithin 4 "change" ⟨ts, 1⟩).Yields 0 (body, 1) ∧
      (∀ raw, .string raw ∈ ts → ReadsString raw (.atom .string raw)) ∧
      ts.flatMap (Token.data (.atom .string)) = Statement.listData body := by
  intro ts body
  have h : (parseWithin 4 "change" ⟨ts, 1⟩).Yields 0 (body, 1) := ⟨by cbv, by cbv⟩
  have hs : ∀ raw, .string raw ∈ ts → ReadsString raw (.atom .string raw) := by
    intro raw hraw
    obtain rfl : raw = "s" := by simpa [ts] using hraw
    exact ⟨"change", 0, 1, by cbv, by cbv⟩
  exact ⟨h, hs, (flatMap_data_of_parse h).2 _ hs⟩

end ModelScript
