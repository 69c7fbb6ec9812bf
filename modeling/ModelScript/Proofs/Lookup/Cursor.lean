import ModelScript.Proofs.Lookup.Scope
import ModelScript.Proofs.Statement.Location
import ModelScript.Proofs.Statement.Taking
import ModelScript.Statement.Cursor

/-!
# Cursors and look-ups

The steps of a reader that keeps an index into its tokens: what stands at the index is looked up,
and a step forward counts a line break.  A reader by look-ups does what a reader of unread tokens
does if it does so at every cursor that stands among its tokens (`Looker.Mirrors`).  Such a cursor
stays among its tokens, wherever a located reader goes on (`Unread.Reaches`), so readers that are
put together mirror readers that are put together:

    q.Mirrors p → (∀ a, (f a).Mirrors (g a)) → Mirrors (q >>= f) (p >>= g)     (`andThen_eq`)
-/

namespace ModelScript

namespace Cursor

variable {c : Cursor} {u : Unread}

/-- The cursor stands among its tokens, or at their end. -/
def Inside (c : Cursor) : Prop := c.position ≤ c.tokens.length

theorem Inside.length_unread (hc : c.Inside) :
    c.position + c.unread.tokens.length = c.tokens.length := by
  have hlen : c.unread.tokens.length = c.tokens.length - c.position := List.length_drop
  unfold Inside at hc
  omega

/-- A cursor that moves to a later place of its unread tokens has those in front of it that are left
there. -/
theorem Inside.unread_toUnread (hc : c.Inside) (hu : c.unread.Reaches u) :
    (c.toUnread u).unread = u := by
  obtain ⟨before, he, -⟩ := hu
  have hlen := congrArg List.length he
  rw [List.length_append] at hlen
  have hinside := hc.length_unread
  have hposition : c.tokens.length - u.tokens.length = c.position + before.length := by omega
  have hdrop : c.tokens.drop (c.tokens.length - u.tokens.length) = u.tokens := by
    rw [hposition, ← List.drop_drop]
    show c.unread.tokens.drop before.length = u.tokens
    rw [he, List.drop_left]
  show Unread.mk (c.tokens.drop (c.tokens.length - u.tokens.length)) u.line = u
  rw [hdrop]

theorem inside_toUnread (c : Cursor) (u : Unread) : (c.toUnread u).Inside := Nat.sub_le _ _

theorem Inside.toUnread_unread (hc : c.Inside) : c.toUnread c.unread = c := by
  have hlen := hc.length_unread
  obtain ⟨tokens, position, line⟩ := c
  show Cursor.mk tokens (tokens.length - (Cursor.mk tokens position line).unread.tokens.length) line
    = ⟨tokens, position, line⟩
  congr 1
  dsimp only at hlen
  omega

end Cursor

namespace Lookup

open Looking (item item_eq bind_eq_of)

/-- Reads something from a cursor on, by look-ups. -/
abbrev Looker (α : Type) := Cursor → Looking (α × Cursor)

/-! ## Steps -/

/-- The token at the cursor, if it does not stand at the end. -/
def current (c : Cursor) : Looking (Option Token) := do
  if c.position < c.tokens.length then return some (← item c.tokens c.position) else return none

def check (c : Cursor) (k : Kind) : Looking Bool := do
  return (← current c).any fun t => t.kind = k

/-- Takes the token at the cursor. -/
def advance : Looker Token := fun c => do
  let t ← item c.tokens c.position
  return (t, ⟨c.tokens, c.position + 1, if t.kind = .newline then c.line + 1 else c.line⟩)

def advanceBy : Nat → Cursor → Looking Cursor
  | 0, c => return c
  | count + 1, c => do
    let (_, c) ← advance c
    advanceBy count c

def advanceTo (c : Cursor) (index : Nat) : Looking Cursor := advanceBy (index - c.position) c

/-- Takes line breaks as long as there are any, in less rounds than the fuel. -/
def skipFrom : Nat → Cursor → Looking Cursor
  | 0, _ => .fail (.miss .round)
  | fuel + 1, c => do
    if ← check c .newline then
      let (_, c) ← advance c
      skipFrom fuel c
    else return c

def skipNewlines (c : Cursor) : Looking Cursor := skipFrom (c.tokens.length + 1) c

/-- Takes the token at the cursor, which has to be of the given kind. -/
def require (file : String) (k : Kind) : Looker Token := fun c => do
  if ← check c k then advance c
  else Looking.fault file c.line (.noToken k (← current c))

/-- Takes an identifier, whose name is its text. -/
def identifier (file : String) : Looker String := fun c => do
  if ← check c .ident then
    let (t, c) ← advance c
    return (← Looking.text t, c)
  else Looking.fault file c.line (.noIdentifier (← current c))

/-- A statement has to end at the cursor. -/
def endStatement (file : String) (c : Cursor) : Looking Unit := do
  if c.atEnd then return ()
  if ← check c .newline then return ()
  Looking.fault file c.line (.leftover (← item c.tokens c.position))

/-! ## The same steps -/

variable {c : Cursor} {file : String}

theorem getElem?_position (c : Cursor) : c.tokens[c.position]? = c.unread.tokens.head? :=
  (List.head?_drop).symm

theorem atEnd_eq (c : Cursor) : c.atEnd = c.unread.tokens.isEmpty := by
  have hiff : c.tokens.length ≤ c.position ↔ c.unread.tokens = [] := List.drop_eq_nil_iff.symm
  unfold Cursor.atEnd
  rw [Bool.eq_iff_iff, decide_eq_true_iff, List.isEmpty_iff, hiff]

theorem current_eq (c : Cursor) : current c = pure c.unread.tokens.head? := by
  unfold current
  rw [← getElem?_position]
  split
  · next h =>
    rw [item_eq (List.getElem?_eq_getElem h), List.getElem?_eq_getElem h]
    rfl
  · next h => rw [List.getElem?_eq_none (Nat.le_of_not_lt h)]

theorem check_eq (c : Cursor) (k : Kind) : check c k = pure (c.unread.startsWith k) := by
  unfold check Unread.startsWith Unread.kind?
  rw [current_eq, pure_bind]
  congr 1
  cases c.unread.tokens.head? with
  | none => rfl
  | some t => rw [Option.any_some, Option.map_some, Option.some_beq_some, beq_eq_decide]

theorem advance_eq (hc : c.Inside) {t : Token} {rest : List Token}
    (h : c.unread.tokens = t :: rest) :
    advance c = pure (t, c.toUnread (c.unread.skip 1)) := by
  have hlen := hc.length_unread
  have hitem : c.tokens[c.position]? = some t := by
    rw [getElem?_position, h]
    rfl
  have hline : (if t.kind = .newline then c.line + 1 else c.line)
      = c.line + Token.newlines (c.unread.tokens.take 1) := by
    rw [h, List.take_succ_cons, List.take_zero]
    by_cases ht : t = .newline
    · subst ht
      rfl
    · have hk : t.kind ≠ .newline := mt (Token.kind_eq_newline_iff t).1 ht
      rw [if_neg hk, Token.newlines_cons_of_ne ht]
      rfl
  have hposition : c.tokens.length - (c.unread.skip 1).tokens.length = c.position + 1 := by
    have hskip : (c.unread.skip 1).tokens.length = c.unread.tokens.length - 1 := List.length_drop
    rw [h, List.length_cons] at hlen hskip
    omega
  unfold advance
  rw [item_eq hitem, pure_bind, hline]
  show pure (t, Cursor.mk c.tokens (c.position + 1) _)
    = pure (t, Cursor.mk c.tokens (c.tokens.length - (c.unread.skip 1).tokens.length) _)
  rw [hposition]
  rfl

theorem advanceBy_eq (hc : c.Inside) {count : Nat} (h : count ≤ c.unread.tokens.length) :
    advanceBy count c = pure (c.toUnread (c.unread.skip count)) := by
  induction count generalizing c with
  | zero => rw [advanceBy, Unread.skip_zero, hc.toUnread_unread]
  | succ count ih =>
    obtain ⟨t, rest, hu⟩ := List.exists_cons_of_length_pos (Nat.lt_of_lt_of_le (Nat.succ_pos _) h)
    have hnext := hc.unread_toUnread (Unread.reaches_skip c.unread 1)
    have hleft : count ≤ (c.toUnread (c.unread.skip 1)).unread.tokens.length := by
      rw [hnext, Unread.skip, List.length_drop]
      omega
    rw [advanceBy, advance_eq hc hu, pure_bind]
    dsimp only
    rw [ih (Cursor.inside_toUnread _ _) hleft, hnext, Unread.skip_skip, Nat.add_comm 1]
    rfl

theorem advanceTo_eq (hc : c.Inside) {index : Nat} (h : index ≤ c.tokens.length) :
    advanceTo c index = pure (c.toUnread (c.unread.skip (index - c.position))) := by
  have hlen := hc.length_unread
  exact advanceBy_eq hc (by omega)

theorem skipFrom_eq (hc : c.Inside) {fuel : Nat} (h : c.unread.tokens.length < fuel) :
    skipFrom fuel c = pure c.skipNewlines := by
  induction fuel generalizing c with
  | zero => exact absurd h (Nat.not_lt_zero _)
  | succ fuel ih =>
    rw [skipFrom, check_eq, pure_bind]
    have hsame (hb : c.unread.skipNewlines = c.unread) :
        (pure c : Looking Cursor) = pure c.skipNewlines := by
      unfold Cursor.skipNewlines
      rw [hb, hc.toUnread_unread]
    cases hu : c.unread.tokens with
    | nil =>
      have he : c.unread = ⟨[], c.line⟩ := by rw [← hu]; rfl
      rw [he]
      exact hsame (by rw [he]; rfl)
    | cons t rest =>
      have he : c.unread = ⟨t :: rest, c.line⟩ := by rw [← hu]; rfl
      by_cases ht : t = .newline
      · subst ht
        have hnext := hc.unread_toUnread (Unread.reaches_skip c.unread 1)
        have hskip : c.unread.skip 1 = ⟨rest, c.line + 1⟩ := by rw [he]; rfl
        rw [hskip] at hnext
        have hrest := ih (Cursor.inside_toUnread c ⟨rest, c.line + 1⟩)
          (by
            rw [hnext]
            rw [hu, List.length_cons] at h
            dsimp only
            omega)
        rw [advance_eq hc hu, hskip, he]
        refine hrest.trans ?_
        unfold Cursor.skipNewlines
        rw [hnext, he, Unread.skipNewlines_newline_cons]
        rfl
      · have hfalse : c.unread.startsWith .newline = false := by
          rw [he]
          cases t with
          | newline => exact absurd rfl ht
          | _ => rfl
        rw [hfalse]
        exact hsame (by rw [he, Unread.skipNewlines_of_ne ht])

theorem skipNewlines_eq (hc : c.Inside) : skipNewlines c = pure c.skipNewlines := by
  have hlen := hc.length_unread
  exact skipFrom_eq hc (by omega)

end Lookup

/-! ## Readings at a cursor -/

theorem Unread.eq_skip_of_accept? {u v : Unread} {k : Kind} {t : Token}
    (h : u.accept? k = some (t, v)) : v = u.skip 1 := by
  unfold accept? at h
  split at h
  · split at h
    · cases h
      rfl
    · cases h
  · cases h

/-- What a reading of the unread tokens does, with the cursor moved to the place where it ends. -/
def Cursor.ending {α ρ : Type} (c : Cursor) (place : ρ → Unread) (x : Reading (α × ρ)) :
    Looking (α × Cursor) :=
  Looking.of (do
    let (a, last) ← x
    return (a, c.toUnread (place last)))

namespace Lookup

open Looking (item item_eq bind_eq_of)

variable {c : Cursor} {file : String} {α β ρ : Type}

/-- The reader by look-ups does what the other one does, wherever it starts. -/
def Looker.Mirrors (q : Looker α) (p : Reader α) : Prop :=
  ∀ {c : Cursor}, c.Inside → q c = c.ending id (p c.unread)

/-- The reader by look-ups goes to the end of the tokens, like the other one. -/
def Looker.MirrorsWhole (q : Looker α) (p : WholeReader α) : Prop :=
  ∀ {c : Cursor}, c.Inside → q c = c.ending (⟨[], ·⟩) (p c.unread)

theorem ending_fault (place : ρ → Unread) (p : Problem) :
    c.ending place (c.unread.fault file p : Reading (α × ρ)) = Looking.fault file c.line p := rfl

theorem ending_pure (place : ρ → Unread) (a : α) (last : ρ) :
    c.ending place (pure (a, last)) = pure (a, c.toUnread (place last)) := rfl

theorem ending_self (hc : c.Inside) (a : α) : c.ending id (pure (a, c.unread)) = pure (a, c) := by
  rw [ending_pure, id, hc.toUnread_unread]

/-- One reader after the other does what the readings do, one after the other. -/
theorem andThen_eq (hc : c.Inside) {q : Looking (α × Cursor)} {x : Reading (α × Unread)}
    {f : α × Cursor → Looking (β × Cursor)} {g : α × Unread → Reading (β × ρ)}
    {place : ρ → Unread} (hq : q = c.ending id x)
    (hx : ∀ {n a}, x.Yields n a → c.unread.Reaches a.2)
    (hf : ∀ {n a} {d : Cursor}, x.Yields n (a, d.unread) → d.Inside →
      f (a, d) = d.ending place (g (a, d.unread))) :
    q >>= f = c.ending place (x >>= g) := by
  rw [hq]
  unfold Cursor.ending
  rw [Looking.of_bind, bind_assoc, bind_assoc]
  refine bind_eq_of rfl ?_
  rintro n ⟨a, u⟩ hy
  have hu := hc.unread_toUnread (hx hy)
  have hfa := hf (by rw [hu]; exact hy) (Cursor.inside_toUnread c u)
  rw [hu] at hfa
  exact hfa

/-- A reading that only passes on what another one has read. -/
theorem passOn_eq {q : Looking (α × Cursor)} {x : Reading (α × ρ)} {place : ρ → Unread}
    (hq : q = c.ending place x) (k : α → β) :
    (do
        let (a, d) ← q
        return (k a, d))
      = c.ending place (do
        let (a, last) ← x
        return (k a, last)) := by
  rw [hq]
  unfold Cursor.ending
  rw [Looking.of_bind, bind_assoc, bind_assoc]
  exact bind_eq_of rfl fun _ _ _ => rfl

/-- Where a cursor came from does not matter for where a reading ends. -/
theorem ending_congr {d : Cursor} (h : d.toUnread = c.toUnread) (place : ρ → Unread)
    (x : Reading (α × ρ)) : d.ending place x = c.ending place x := by
  unfold Cursor.ending
  rw [h]

/-- The cursor behind line breaks has the tokens in front of it that are left there. -/
theorem exists_skipNewlines (hc : c.Inside) :
    ∃ d : Cursor, skipNewlines c = pure d ∧ d.Inside ∧ d.unread = c.unread.skipNewlines ∧
      d.toUnread = c.toUnread :=
  ⟨c.skipNewlines, skipNewlines_eq hc, Cursor.inside_toUnread _ _,
    hc.unread_toUnread (Unread.reaches_skipNewlines _), rfl⟩

/-- A token of a kind is there and can be taken, or it is not there. -/
theorem check_cases (hc : c.Inside) (k : Kind) :
    (∃ t, ∃ d : Cursor, check c k = pure true ∧ advance c = pure (t, d) ∧ d.Inside ∧
        d.toUnread = c.toUnread ∧ c.unread.accept? k = some (t, d.unread)) ∨
      check c k = pure false ∧ c.unread.accept? k = none := by
  rw [check_eq]
  unfold Unread.accept? Unread.startsWith Unread.kind?
  cases hu : c.unread.tokens with
  | nil => exact Or.inr ⟨rfl, rfl⟩
  | cons t rest =>
    by_cases hk : t.kind = k
    · have hd := hc.unread_toUnread (Unread.reaches_skip c.unread 1)
      refine Or.inl ⟨t, c.toUnread (c.unread.skip 1), ?_, advance_eq hc hu,
        Cursor.inside_toUnread _ _, rfl, ?_⟩
      · simp [hk]
      · rw [hd]
        exact if_pos hk
    · refine Or.inr ⟨?_, if_neg hk⟩
      simp [beq_eq_false_iff_ne.2 hk]

theorem require_eq (hc : c.Inside) (file : String) (k : Kind) :
    require file k c = c.ending id (c.unread.require file k) := by
  unfold require Unread.require
  rcases check_cases hc k with ⟨t, d, hcheck, hadvance, hd, hto, ha⟩ | ⟨hcheck, ha⟩
  · rw [hcheck, pure_bind, if_pos rfl, hadvance, ha, ← ending_congr hto]
    exact (ending_self hd _).symm
  · rw [hcheck, pure_bind, if_neg (by simp), current_eq, pure_bind, ha]
    rfl

theorem word_andThen_eq (hc : c.Inside) (w : Keyword) {f : Token × Cursor → Looking (β × Cursor)}
    {g : Unread → Reading (β × ρ)} {place : ρ → Unread}
    (hf : ∀ t {d : Cursor}, d.Inside → f (t, d) = d.ending place (g d.unread)) :
    require file (.keyword w) c >>= f = c.ending place (c.unread.word file w >>= g) := by
  unfold Unread.word
  rw [bind_map_left]
  exact andThen_eq hc (require_eq hc file _) (Unread.require_located file _ _).result
    fun _ hd => hf _ hd

theorem identifier_eq (hc : c.Inside) (file : String) :
    identifier file c = c.ending id (c.unread.identifier file) := by
  unfold identifier Unread.identifier
  rcases check_cases hc .ident with ⟨t, d, hcheck, hadvance, hd, hto, ha⟩ | ⟨hcheck, ha⟩
  · obtain ⟨hu, hk⟩ := Unread.eq_of_accept? ha
    rw [hcheck, pure_bind, if_pos rfl, hadvance, pure_bind, hu, ← Unread.eq_skip_of_accept? ha,
      ← ending_congr hto]
    cases t with
    | ident name => exact (ending_self hd _).symm
    | _ => cases hk
  · rw [hcheck, pure_bind, if_neg (by simp), current_eq, pure_bind]
    split
    · next name rest hu =>
      unfold Unread.accept? at ha
      rw [hu] at ha
      cases ha
    · rfl

theorem endStatement_eq (file : String) (c : Cursor) :
    endStatement file c = Looking.of (c.unread.requireEnd file) := by
  unfold endStatement Unread.requireEnd
  rw [atEnd_eq, check_eq]
  cases hu : c.unread.tokens with
  | nil => rfl
  | cons t rest =>
    have hitem : c.tokens[c.position]? = some t := by
      rw [getElem?_position, hu]
      rfl
    have hstarts : c.unread.startsWith .newline = t.isNewline := by
      unfold Unread.startsWith Unread.kind?
      rw [hu]
      cases t <;> rfl
    rw [if_neg (by simp), pure_bind, hstarts, item_eq hitem]
    cases t <;> rfl

theorem endStatement_andThen_eq {f : Looking (β × Cursor)} {g : Reading (β × ρ)}
    {place : ρ → Unread} (hf : f = c.ending place g) :
    (do
        endStatement file c
        f)
      = c.ending place (do
        c.unread.requireEnd file
        g) := by
  unfold Cursor.ending
  rw [bind_assoc]
  exact bind_eq_of (endStatement_eq file c) fun _ _ _ => hf

end Lookup

end ModelScript
