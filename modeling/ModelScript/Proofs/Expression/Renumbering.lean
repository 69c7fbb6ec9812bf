import ModelScript.Expression.Parser
import ModelScript.Proofs.Reading.Renumbering

/-!
# Expressions read in other places

The reader of expressions is one step over a reader for the expressions inside.  Each function of
that step carries over to other lines, another file and a deeper inner reader, so by induction on
the depth the whole reader does (`read_carries`).
-/

namespace ModelScript

variable {R : Nat → Nat → Prop}

/-! ## Tokens -/

/-- The same tokens, or the same fault in corresponding lines. -/
inductive Lexer.Alike (R : Nat → Nat → Prop) :
    Except Fault (List Token) → Except Fault (List Token) → Prop
  | ok (ts : List Token) : Alike R (.ok ts) (.ok ts)
  | error {f g : Fault} (h : f.Alike R g) : Alike R (.error f) (.error g)

theorem Renumbering.after {p q : Place} (hR : Renumbering R) (c : Char) (hl : R p.line q.line)
    (hc : p.column = q.column) :
    R (p.after c).line (q.after c).line ∧ (p.after c).column = (q.after c).column := by
  unfold Place.after
  split
  · exact ⟨hR.add 1 hl, rfl⟩
  · exact ⟨hl, by rw [hc]⟩

theorem Lexer.scan_alike (hR : Renumbering R) (file file' : String) (cs : List Char)
    {p q : Place} (skip : Nat) (hl : R p.line q.line) (hc : p.column = q.column) :
    Lexer.Alike R (scan file p skip cs) (scan file' q skip cs) := by
  induction cs generalizing p q skip with
  | nil =>
    cases skip with
    | zero => exact .ok []
    | succ skip => exact .ok []
  | cons c cs ih =>
    obtain ⟨hl', hc'⟩ := hR.after c hl hc
    cases skip with
    | succ skip => exact ih skip hl' hc'
    | zero =>
      unfold scan
      split
      · exact .error ⟨by rw [hc], hl⟩
      · next l n _ =>
        have h := ih (n - 1) hl' hc'
        generalize scan file (p.after c) (n - 1) cs = x at h ⊢
        generalize scan file' (q.after c) (n - 1) cs = y at h ⊢
        cases h with
        | ok ts => exact .ok _
        | error h => exact .error h

theorem Reading.tokens_carries (hR : Renumbering R) (file file' : String) {l l' : Nat}
    (hl : R l l') (source : List Char) :
    Carries R Eq (Reading.tokens file l source) (Reading.tokens file' l' source) := by
  have h := Lexer.scan_alike hR file file' source (p := ⟨0, l, 1⟩) (q := ⟨0, l', 1⟩) 0 hl rfl
  unfold Reading.tokens tokenize
  generalize Lexer.scan file ⟨0, l, 1⟩ 0 source = x at h ⊢
  generalize Lexer.scan file' ⟨0, l', 1⟩ 0 source = y at h ⊢
  cases h with
  | ok ts => exact Or.inr ⟨.cons (.tokenized _ _ _) .nil, .ok rfl⟩
  | error h => exact Or.inr ⟨.nil, .fault h⟩

/-! ## Constructs -/

namespace Expr

variable {r r' : ExprReader} {l l' : Nat}

theorem operation?_carries (hR : Renumbering R) (hr : r.Carries R r') (hl : R l l')
    (length : Nat) (ts : List Token) :
    Reading.Carries R (Option.Rel (Reached R)) (operation? r length l ts)
      (operation? r' length l' ts) := by
  unfold operation?
  split
  · exact .pure .none
  · refine (hr _ hl).bind ?_
    rintro ⟨e, m⟩ ⟨_, m'⟩ ⟨rfl, hm⟩
    refine (hr _ (hR.max hm (hR.add _ hl))).bind ?_
    rintro ⟨e', k⟩ ⟨_, k'⟩ ⟨rfl, hk⟩
    exact .pure (.some ⟨rfl, hk⟩)

theorem orOperation_carries (hR : Renumbering R) (hr : r.Carries R r') (hl : R l l')
    (file file' : String) (length : Nat) (ts : List Token) {x y : Reading (Expr × Nat)}
    (h : Reading.Carries R (Reached R) x y) :
    Reading.Carries R (Reached R) (orOperation file r length l ts x)
      (orOperation file' r' length l' ts y) := by
  unfold orOperation
  refine (operation?_carries hR hr hl length ts).bind ?_
  intro a b hab
  cases hab with
  | some hab => exact .pure hab
  | none =>
    refine Reading.Carries.bind (A := Eq) ?_ fun _ _ _ => h
    unfold requireEnd
    split
    · exact .pure rfl
    · exact .fault _ _ _ (hR.add _ (hR.add _ hl))

theorem bracketed_carries (hR : Renumbering R) (hl : R l l') (file file' : String) (b : Bracket)
    (ts : List Token) :
    Reading.Carries R Eq (bracketed file b l ts) (bracketed file' b l' ts) := by
  unfold bracketed
  split
  · exact .pure rfl
  · exact .fault _ _ _ (hR.add _ hl)

theorem elements_carries (hR : Renumbering R) (hr : r.Carries R r') (segments : List (List Token))
    (hl : R l l') : Reading.Carries R Eq (elements r l segments) (elements r' l' segments) := by
  induction segments generalizing l l' with
  | nil => exact .pure rfl
  | cons ts rest ih =>
    refine (hr ts hl).bind ?_
    rintro ⟨e, m⟩ ⟨_, m'⟩ ⟨rfl, -⟩
    refine (ih (hR.add _ hl)).bind ?_
    rintro es _ rfl
    exact .pure rfl

theorem onlyElement_carries (hr : r.Carries R r') (hl : R l l') (ts : List Token) :
    Reading.Carries R Eq (onlyElement r l ts) (onlyElement r' l' ts) := by
  have h := hr ts hl
  unfold onlyElement
  generalize r l ts = x at h ⊢
  generalize r' l' ts = y at h ⊢
  obtain ⟨ex, ox⟩ := x
  obtain ⟨ey, oy⟩ := y
  rcases h with h | ⟨he, h⟩
  · cases h
    exact Or.inl rfl
  · cases h with
    | ok h => exact Or.inr ⟨he, .ok (by rw [h.1])⟩
    | fault h => exact Or.inr ⟨List.rel_append he (.cons (.dropped h) .nil), .ok rfl⟩
    | noList k => exact Or.inr ⟨he, .noList k⟩

theorem readList_carries (hR : Renumbering R) (hr : r.Carries R r') (hl : R l l')
    (file file' : String) (opening closing : Kind) (ts : List Token) :
    Reading.Carries R Eq (readList file r opening closing l ts)
      (readList file' r' opening closing l' ts) := by
  unfold readList
  split
  · split
    · exact .fault _ _ _ hl
    · exact .noList _
  · split
    · split
      · exact .fault _ _ _ (hR.add _ hl)
      · exact .fault _ _ _ (hR.add _ hl)
      · exact .noList _
    · dsimp only
      split
      · exact .pure rfl
      · split
        · exact onlyElement_carries hr (hR.add _ hl) _
        · exact elements_carries hR hr _ (hR.add _ hl)

theorem parts_carries (hR : Renumbering R) (hr : r.Carries R r') (hl : R l l')
    (file file' : String) (text : List Char) (start : Nat) (ranges : List Interpolation) :
    Reading.Carries R Eq (parts file r l text start ranges)
      (parts file' r' l' text start ranges) := by
  induction ranges generalizing start with
  | nil => exact .pure rfl
  | cons i rest ih =>
    unfold parts
    split
    · exact .fault _ _ _ hl
    · refine (Reading.tokens_carries hR file file' hl _).bind ?_
      rintro ts _ rfl
      refine (hr ts hl).bind ?_
      rintro ⟨e, m⟩ ⟨_, m'⟩ ⟨rfl, -⟩
      refine (ih _).bind ?_
      rintro es _ rfl
      exact .pure rfl

theorem readString_carries (hR : Renumbering R) (hr : r.Carries R r') (hl : R l l')
    (file file' : String) (raw : String) :
    Reading.Carries R Eq (readString file r l raw) (readString file' r' l' raw) := by
  unfold readString
  split
  · exact .pure rfl
  · exact (parts_carries hR hr hl file file' _ _ _).map fun _ _ h => by rw [h]

theorem readGrouped_carries (hR : Renumbering R) (hr : r.Carries R r') (hl : R l l')
    (file file' : String) (ts : List Token) :
    Reading.Carries R (Reached R) (readGrouped file r l ts) (readGrouped file' r' l' ts) := by
  unfold readGrouped
  refine (bracketed_carries hR hl file file' .round ts).bind ?_
  rintro ⟨start, stop⟩ _ rfl
  dsimp only
  split
  · exact .fault _ _ _ hl
  · refine orOperation_carries hR hr hl file file' _ ts ?_
    refine (hr _ hl).bind ?_
    rintro ⟨e, m⟩ ⟨_, m'⟩ ⟨rfl, hm⟩
    exact .pure ⟨rfl, hm⟩

theorem readPrefixed_carries (hr : r.Carries R r') (hl : R l l') (file file' operator : String)
    (ts : List Token) :
    Reading.Carries R (Reached R) (readPrefixed file r operator l ts)
      (readPrefixed file' r' operator l' ts) := by
  unfold readPrefixed
  split
  · refine (hr _ hl).bind ?_
    rintro ⟨e, m⟩ ⟨_, m'⟩ ⟨rfl, hm⟩
    exact .pure ⟨rfl, hm⟩
  · exact .fault _ _ _ hl

theorem readListing_carries (hR : Renumbering R) (hr : r.Carries R r') (hl : R l l')
    (file file' : String) (b : Bracket) (build : List Expr → Expr) (ts : List Token) :
    Reading.Carries R (Reached R) (readListing file r b build l ts)
      (readListing file' r' b build l' ts) := by
  unfold readListing
  refine (bracketed_carries hR hl file file' b ts).bind ?_
  rintro ⟨start, stop⟩ _ rfl
  refine orOperation_carries hR hr hl file file' _ ts ?_
  refine (readList_carries hR hr hl file file' _ _ ts).bind ?_
  rintro es _ rfl
  exact .pure ⟨rfl, hl⟩

theorem readAccess_carries (hR : Renumbering R) (hr : r.Carries R r') (hl : R l l')
    (file file' name : String) (ts : List Token) :
    Reading.Carries R (Reached R) (readAccess file r name l ts)
      (readAccess file' r' name l' ts) := by
  unfold readAccess
  refine (bracketed_carries hR hl file file' .square ts).bind ?_
  rintro ⟨start, stop⟩ _ rfl
  refine orOperation_carries hR hr hl file file' _ ts ?_
  dsimp only
  split
  · exact .fault _ _ _ (hR.add _ hl)
  · refine (hr _ (hR.add _ (hR.add _ hl))).bind ?_
    rintro ⟨e, m⟩ ⟨_, m'⟩ ⟨rfl, hm⟩
    exact .pure ⟨rfl, hR.max hl hm⟩

theorem readAtom_carries (hR : Renumbering R) (hr : r.Carries R r') (hl : R l l')
    (file file' : String) (kind : Atom) (text : String) (ts : List Token) :
    Reading.Carries R (Reached R) (readAtom file r kind text l ts)
      (readAtom file' r' kind text l' ts) := by
  unfold readAtom
  refine (operation?_carries hR hr hl 1 ts).bind ?_
  intro a b hab
  cases hab with
  | some hab => exact .pure hab
  | none =>
    dsimp only
    split
    · exact .fault _ _ _ hl
    · split
      · refine (readString_carries hR hr hl file file' text).bind ?_
        rintro e _ rfl
        exact .pure ⟨rfl, hl⟩
      · exact .pure ⟨rfl, hl⟩

/-! ## The whole reader -/

theorem readStep_carries (hR : Renumbering R) (hr : r.Carries R r') (file file' : String) :
    (readStep file r).Carries R (readStep file' r') := by
  intro l l' ts hl
  have hl := hR.add (Token.leadingNewlines ts) hl
  unfold readStep
  dsimp only
  split
  · exact .fault _ _ _ hl
  · exact readGrouped_carries hR hr hl file file' _
  · exact readPrefixed_carries hr hl file file' _ _
  · exact readListing_carries hR hr hl file file' _ _ _
  · exact readListing_carries hR hr hl file file' _ _ _
  · exact readAccess_carries hR hr hl file file' _ _
  · exact readAtom_carries hR hr hl file file' _ _ _

/-- What is read at some depth is read at every greater one, in any file and from any line. -/
theorem read_carries (hR : Renumbering R) (file file' : String) {depth depth' : Nat}
    (h : depth ≤ depth') : (read file depth).Carries R (read file' depth') := by
  induction depth generalizing depth' with
  | zero => exact fun _ _ => Or.inl rfl
  | succ depth ih =>
    obtain ⟨k, rfl⟩ : ∃ k, depth' = k + 1 := ⟨depth' - 1, by omega⟩
    exact readStep_carries hR (ih (by omega)) file file'

/-- A finished reading does not change when the reader may go deeper. -/
theorem yields_of_le {file : String} {depth depth' line reached n : Nat} {ts : List Token}
    {e : Expr} (h : depth ≤ depth') (hy : (read file depth line ts).Yields n (e, reached)) :
    (read file depth' line ts).Yields n (e, reached) := by
  have hc : (read file depth).Carries Eq (read file depth') := read_carries .eq file file h
  obtain ⟨⟨e', reached'⟩, hy', he, hl⟩ := (hc ts rfl).yields hy
  cases he
  cases hl
  exact hy'

/-- Which expression is read depends on the tokens alone. -/
theorem eq_of_yields {file file' : String} {depth depth' line line' reached reached' : Nat}
    {m n : Nat} {ts : List Token} {e e' : Expr}
    (h : (read file depth line ts).Yields m (e, reached))
    (h' : (read file' depth' line' ts).Yields n (e', reached')) : e = e' ∧ m = n := by
  have hc : (read file depth).Carries (fun _ _ => True) (read file' (max depth depth')) :=
    read_carries .any file file' (by omega)
  obtain ⟨⟨e1, reached1⟩, hy, he, -⟩ := (hc ts (trivial : (fun _ _ => True) line line')).yields h
  obtain ⟨heq, hmn⟩ := hy.unique (yields_of_le (by omega) h')
  cases heq
  exact ⟨he, hmn⟩

end Expr

end ModelScript
