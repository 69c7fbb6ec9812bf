import ModelScript.Proofs.Expression.Ledger
import ModelScript.Proofs.Scope.Nesting

/-!
# What is left without the dropped elements

`Dropping n ts drops us` says that `us` is left of the tokens `ts` of a reading with `n` warnings when
the elements `drops` are deleted, each of which stood alone in its list and was refused by the reader.
Such tokens are put together as the tokens of the reading are.
-/

namespace ModelScript

open Token (enclose)
open Scope (Emptied)

/-- No more elements than there are warnings are deleted, and all of them were refused. -/
structure Dropping (n : Nat) (ts : List Token) (drops : List (List Token)) (us : List Token) :
    Prop where
  emptied : Emptied drops ts us
  dropped : ∀ d ∈ drops, ∃ k, Expr.Dropped k d
  length_le : drops.length ≤ n

namespace Dropping

variable {m n : Nat} {ts us ts' us' : List Token} {drops drops' : List (List Token)}

theorem refl (n : Nat) (ts : List Token) : Dropping n ts [] ts :=
  ⟨.none ts, by simp, Nat.zero_le n⟩

theorem drop {b : Bracket} (hb : b ≠ .curly) (hc : Scope.Closes b ts) (h : Expr.Dropped n ts) :
    Dropping (n + 1) (enclose b ts) [ts] (enclose b []) :=
  ⟨.singleton hb hc, by simpa using ⟨n, h⟩, by simp⟩

theorem between (h : Dropping n ts drops us) (before after : List Token) :
    Dropping n (before ++ ts ++ after) drops (before ++ us ++ after) :=
  ⟨h.emptied.between before after, h.dropped, h.length_le⟩

theorem append (h : Dropping m ts drops us) (h' : Dropping n ts' drops' us') :
    Dropping (m + n) (ts ++ ts') (drops ++ drops') (us ++ us') where
  emptied := h.emptied.append h'.emptied
  dropped d hd := (List.mem_append.1 hd).elim (h.dropped d) (h'.dropped d)
  length_le := by
    rw [List.length_append]
    exact Nat.add_le_add h.length_le h'.length_le

end Dropping

end ModelScript
