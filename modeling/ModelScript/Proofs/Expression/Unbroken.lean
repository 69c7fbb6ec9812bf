import ModelScript.Proofs.Expression.Depth
import ModelScript.Proofs.Expression.Location
import ModelScript.Proofs.Expression.Renumbering
import ModelScript.Proofs.Reading.Agreement
import ModelScript.Proofs.Scope.Unbroken

/-!
# Expressions without their line breaks

Inside of an expression line breaks do not matter: the tokens are read as the same expression
without them, or refused for a reason of the same category (`read_unbroken`).  The induction is on
the depth; at each level the tokens have one of the forms of `Construct.Leads`, and leaving out the
line breaks keeps the form, so that both readings take the same branches.
-/

namespace ModelScript

open Token (Blank Trimmed unbroken enclose)
open Reading (Agrees)

theorem Construct.of?_unbroken {ts : List Token} (h : Trimmed ts) :
    Construct.of? (unbroken ts) = Construct.of? ts := by
  cases ts with
  | nil => rfl
  | cons t rest =>
    have ht : t ≠ .newline := fun he => h.head (by rw [he]; rfl)
    rw [Token.unbroken_cons_of_ne ht]
    unfold Construct.of?
    rw [Construct.prefixOf?_cons t rest, Construct.prefixOf?_cons t (unbroken rest),
      Token.trimStart_cons_of_ne ht, Token.trimStart_cons_of_ne ht]
    split
    · rfl
    · cases t with
      | ident name =>
        exact congrArg (fun n => some (ofName name n)) (Token.significant?_unbroken rest)
      | mark m =>
        cases m with
        | opening b => cases b <;> rfl
        | _ => rfl
      | _ => rfl

namespace Expr

/-- The same expression, wherever its reading has come to. -/
def SameExpr (p q : Expr × Nat) : Prop := p.1 = q.1

variable {file : String} {read : ExprReader}

/-! ## Operators -/

/-- An open bracket is refused with the line breaks and without them. -/
theorem unmatched_agrees {α β : Type} {A : α → β → Prop} (l l' : Nat) (b : Bracket)
    {f : Nat × Nat → Reading α} {g : Nat × Nat → Reading β} :
    Agrees A (Reading.fault file l (.unmatched b) >>= f)
      (Reading.fault file l' (.unmatched b) >>= g) :=
  Agrees.bind (A := fun _ _ => False) (.fault file file rfl) fun _ _ h => h.elim

/-- The same operator continues a construct without the line breaks, between the same operands. -/
theorem split?_unbroken {head tail : List Token} (ht : Trimmed (head ++ tail)) :
    (split? head.length (head ++ tail) = none ∧
        split? (unbroken head).length (unbroken head ++ unbroken tail) = none) ∨
      ∃ s s', split? head.length (head ++ tail) = some s ∧
        split? (unbroken head).length (unbroken head ++ unbroken tail) = some s' ∧
        s'.left = unbroken s.left ∧ s'.operator = s.operator ∧ s'.right = unbroken s.right := by
  obtain ⟨breaks, -, he, -, hh⟩ := Token.exists_eq_trimStart tail
  have htail : Token.trimStart (unbroken tail) = unbroken (Token.trimStart tail) := by
    rw [(Token.trimmed_unbroken tail).trimStart_eq, Token.unbroken_trimStart]
  have hleft : Token.trimEnd (unbroken head) = unbroken (Token.trimEnd head) := by
    rw [(Token.trimmed_unbroken head).trimEnd_eq, Token.unbroken_trimEnd]
  unfold split?
  rw [List.drop_left, List.take_left, List.drop_left, List.take_left, htail, hleft]
  cases hs : Token.trimStart tail with
  | nil => exact Or.inl ⟨rfl, rfl⟩
  | cons t rest =>
    rw [hs] at he hh
    have hne : t ≠ .newline := by
      rintro rfl
      exact hh rfl
    rw [Token.unbroken_cons_of_ne hne]
    cases t with
    | operator op =>
      cases rest with
      | nil => exact Or.inl ⟨rfl, rfl⟩
      | cons r rest =>
        have hsome : unbroken (r :: rest) ≠ [] := by
          have hshape : head ++ tail = (head ++ breaks ++ [.operator op]) ++ (r :: rest) := by
            rw [he]
            simp
          rw [hshape] at ht
          exact mt (Token.unbroken_eq_nil_iff _).1 (Trimmed.not_blank_tail _ ht (by simp))
        obtain ⟨r', rest', hr'⟩ := List.exists_cons_of_ne_nil hsome
        rw [hr']
        exact Or.inr ⟨_, _, rfl, rfl, rfl, rfl, hr'.symm⟩
    | _ => exact Or.inl ⟨rfl, rfl⟩

/-- What is known of the reader for the expressions inside: it takes tokens with line breaks and
without them alike, and has nothing to make of line breaks alone. -/
structure IgnoresBreaks (file : String) (read : ExprReader) : Prop where
  agrees : ∀ (l l' : Nat) (ts : List Token), Agrees SameExpr (read l ts) (read l' (unbroken ts))
  blank : ∀ (l : Nat) {ts : List Token}, Blank ts →
    (read l ts).outcome = .error .tooDeep ∨ ∃ f, (read l ts).outcome = .error (.fault f)
  string : ∀ (l l' : Nat) (raw : String),
    Agrees Eq (readString file read l raw) (readString file read l' raw)

section

variable (hr : IgnoresBreaks file read)
include hr

theorem operation?_agrees (l l' : Nat) {head tail : List Token} (ht : Trimmed (head ++ tail)) :
    Agrees (fun r r' => r.map (·.1) = r'.map (·.1)) (operation? read head.length l (head ++ tail))
      (operation? read (unbroken head).length l' (unbroken head ++ unbroken tail)) := by
  unfold operation?
  rcases split?_unbroken ht with ⟨hs, hs'⟩ | ⟨s, s', hs, hs', hleft, hop, hright⟩
  · rw [hs, hs']
    exact .pure rfl
  · rw [hs, hs']
    dsimp only
    rw [hleft, hright, hop]
    refine (hr.agrees _ _ _).bind ?_
    rintro ⟨e, m⟩ ⟨e', m'⟩ ⟨⟩
    refine (hr.agrees _ _ _).bind ?_
    rintro ⟨f, k⟩ ⟨f', k'⟩ ⟨⟩
    exact .pure rfl

theorem orOperation_agrees (l l' : Nat) {head tail : List Token} (ht : Trimmed (head ++ tail))
    {alone alone' : Reading (Expr × Nat)} (ha : Agrees SameExpr alone alone') :
    Agrees SameExpr (orOperation file read head.length l (head ++ tail) alone)
      (orOperation file read (unbroken head).length l' (unbroken head ++ unbroken tail) alone') := by
  unfold orOperation
  refine (operation?_agrees hr l l' ht).bind ?_
  intro r r' hrr
  cases r with
  | some p =>
    cases r' with
    | some p' => exact .pure (Option.some.inj hrr)
    | none => cases hrr
  | none =>
    cases r' with
    | some p' => cases hrr
    | none =>
      refine Agrees.bind (A := fun _ _ => True) ?_ fun _ _ _ => ha
      unfold requireEnd
      have htail : Token.trimStart (unbroken tail) = unbroken (Token.trimStart tail) := by
        rw [(Token.trimmed_unbroken tail).trimStart_eq, Token.unbroken_trimStart]
      obtain ⟨-, -, -, -, hh⟩ := Token.exists_eq_trimStart tail
      rw [List.drop_left, List.drop_left, htail]
      cases hs : Token.trimStart tail with
      | nil => exact .pure trivial
      | cons t rest =>
        have hne : t ≠ .newline := by
          rintro rfl
          rw [hs] at hh
          exact hh rfl
        rw [Token.unbroken_cons_of_ne hne]
        exact .fault file file rfl

/-! ## Lists -/

theorem elements_agrees (l l' : Nat) (segments : List (List Token)) :
    Agrees Eq (elements read l segments) (elements read l' (segments.map unbroken)) := by
  induction segments generalizing l l' with
  | nil => exact .pure rfl
  | cons ts rest ih =>
    rw [List.map_cons]
    unfold elements
    refine (hr.agrees l l' ts).bind ?_
    rintro ⟨e, m⟩ ⟨e', m'⟩ ⟨⟩
    refine (ih _ _).bind ?_
    rintro es _ rfl
    exact .pure rfl

/-- Whatever is wrong in the only element, it is left out either way. -/
theorem onlyElement_agrees (l l' : Nat) (ts : List Token) :
    Agrees Eq (onlyElement read l ts) (onlyElement read l' (unbroken ts)) := by
  have h := hr.agrees l l' ts
  unfold Agrees onlyElement at *
  generalize read l ts = x at h
  generalize read l' (unbroken ts) = y at h
  obtain ⟨ex, ox⟩ := x
  obtain ⟨ey, oy⟩ := y
  dsimp only at h ⊢
  rcases h with rfl | h
  · exact Or.inl rfl
  · cases h with
    | ok he =>
      refine Or.inr ?_
      dsimp only
      rw [he]
      exact .ok rfl
    | fault hc => exact Or.inr (.ok rfl)

/-! ## Brackets -/

/-- Brackets with nothing but line breaks between them hold no element. -/
theorem onlyElement_of_blank (l : Nat) {ts : List Token} (h : Blank ts) {y : Reading (List Expr)}
    (hy : y.outcome = .ok []) : Agrees Eq (onlyElement read l ts) y := by
  unfold Agrees onlyElement
  dsimp only
  rcases hr.blank l h with hx | ⟨f, hx⟩
  · rw [hx]
    exact Or.inl rfl
  · rw [hx, hy]
    exact Or.inr (.ok rfl)

theorem readList_agrees (l l' : Nat) {b : Bracket} {before inner : List Token}
    (hb : ∀ a ∈ before, a ≠ .opening b) (hc : Scope.Closes b inner) (tail : List Token) :
    Agrees Eq
      (readList file read (.mark (.opening b)) (.mark (.closing b)) l
        (before ++ enclose b inner ++ tail))
      (readList file read (.mark (.opening b)) (.mark (.closing b)) l'
        (unbroken before ++ enclose b (unbroken inner) ++ unbroken tail)) := by
  have hb' : ∀ a ∈ unbroken before, a ≠ .opening b := fun a ha => hb a (List.mem_filter.1 ha).1
  rw [readList_eq hb hc, readList_eq hb' ((Scope.closes_unbroken b inner).2 hc)]
  by_cases hi : inner = []
  · subst hi
    exact .pure rfl
  by_cases hu : unbroken inner = []
  · rw [if_neg hi, if_pos hu]
    have hblank' := (Token.unbroken_eq_nil_iff inner).1 hu
    have hone : (Scope.segments 0 inner).map unbroken = [[]] := by
      rw [← Scope.segments_unbroken, hu]
      rfl
    obtain ⟨s, hs, -⟩ := List.map_eq_singleton_iff.1 hone
    rw [hs]
    exact onlyElement_of_blank hr _ hblank' rfl
  · rw [if_neg hi, if_neg hu, Scope.segments_unbroken]
    cases hs : Scope.segments 0 inner with
    | nil => exact absurd hs (Scope.segments_ne_nil 0 inner)
    | cons s rest =>
      cases rest with
      | nil => exact onlyElement_agrees hr _ _ inner
      | cons s' rest => exact elements_agrees hr _ _ (s :: s' :: rest)

theorem readGrouped_agrees (l l' : Nat) {rest : List Token}
    (ht : Trimmed (.opening .round :: rest)) :
    Agrees SameExpr (readGrouped file read l (.opening .round :: rest))
      (readGrouped file read l' (.opening .round :: unbroken rest)) := by
  by_cases hc : ∃ inner tail, rest = inner ++ .closing .round :: tail ∧ Scope.Closes .round inner
  · obtain ⟨inner, tail, rfl, hc⟩ := hc
    rw [Token.unbroken_append, Token.unbroken_cons_of_ne (by simp), ← Token.enclose_append,
      ← Token.enclose_append, readGrouped_eq file read l hc,
      readGrouped_eq file read l' ((Scope.closes_unbroken .round inner).2 hc),
      Token.significant?_unbroken, ← Token.unbroken_enclose]
    rw [← Token.enclose_append] at ht
    split
    · exact .fault file file rfl
    · refine orOperation_agrees hr l l' ht ((hr.agrees _ _ inner).bind ?_)
      rintro ⟨e, m⟩ ⟨e', m'⟩ ⟨⟩
      exact .pure rfl
  · have hopen := bracketed_of_not_closed file l [] (by simp) hc
    have hopen' := bracketed_of_not_closed file l' [] (by simp)
      (mt (Scope.exists_closes_unbroken .round rest).1 hc)
    rw [List.nil_append] at hopen hopen'
    unfold readGrouped
    rw [hopen, hopen']
    exact unmatched_agrees _ _ .round

theorem readListing_agrees (l l' : Nat) {b : Bracket} (build : List Expr → Expr)
    (before : List Token) {rest : List Token} (hb : ∀ a ∈ before, a ≠ .opening b)
    (ht : Trimmed (before ++ .opening b :: rest)) :
    Agrees SameExpr (readListing file read b build l (before ++ .opening b :: rest))
      (readListing file read b build l' (unbroken before ++ .opening b :: unbroken rest)) := by
  have hb' : ∀ a ∈ unbroken before, a ≠ .opening b := fun a ha => hb a (List.mem_filter.1 ha).1
  by_cases hc : ∃ inner tail, rest = inner ++ .closing b :: tail ∧ Scope.Closes b inner
  · obtain ⟨inner, tail, rfl, hc⟩ := hc
    rw [← Token.enclose_append, ← List.append_assoc] at ht
    rw [Token.unbroken_append, Token.unbroken_cons_of_ne (by simp), ← Token.enclose_append,
      ← Token.enclose_append, ← List.append_assoc, ← List.append_assoc,
      readListing_eq file read l build _ hb hc,
      readListing_eq file read l' build _ hb' ((Scope.closes_unbroken b inner).2 hc)]
    have hlist := readList_agrees hr l l' hb hc tail
    rw [← Token.unbroken_enclose, ← Token.unbroken_append] at hlist ⊢
    refine orOperation_agrees hr l l' ht (hlist.bind ?_)
    rintro es _ rfl
    exact .pure rfl
  · unfold readListing
    rw [bracketed_of_not_closed file l before hb hc, bracketed_of_not_closed file l' _ hb'
      (mt (Scope.exists_closes_unbroken b rest).1 hc)]
    exact unmatched_agrees _ _ b

theorem readAccess_agrees (l l' : Nat) (name : String) {breaks rest : List Token}
    (hb : Blank breaks) (ht : Trimmed (.ident name :: breaks ++ .opening .square :: rest)) :
    Agrees SameExpr (readAccess file read name l (.ident name :: breaks ++ .opening .square :: rest))
      (readAccess file read name l' (.ident name :: .opening .square :: unbroken rest)) := by
  by_cases hc : ∃ inner tail, rest = inner ++ .closing .square :: tail ∧ Scope.Closes .square inner
  · obtain ⟨inner, tail, rfl, hc⟩ := hc
    rw [← Token.enclose_append, ← List.append_assoc] at ht
    have heq := readAccess_eq file read l' name Blank.nil
      ((Scope.closes_unbroken .square inner).2 hc) (unbroken tail)
    have hhead : .ident name :: [] ++ enclose .square (unbroken inner)
        = unbroken (.ident name :: breaks ++ enclose .square inner) := by
      rw [Token.unbroken_ident_append_enclose name hb]
      rfl
    have htrim : Token.trim (unbroken inner) = unbroken (Token.trim inner) := by
      rw [(Token.trimmed_unbroken inner).trim_eq, Token.unbroken_trim]
    rw [Token.unbroken_append, Token.unbroken_cons_of_ne (by simp), ← Token.enclose_append,
      ← Token.enclose_append, ← List.append_assoc, readAccess_eq file read l name hb hc]
    show Agrees SameExpr _ (readAccess file read name l'
      (.ident name :: [] ++ enclose .square (unbroken inner) ++ unbroken tail))
    rw [heq, hhead, htrim]
    refine orOperation_agrees hr l l' ht ?_
    obtain ⟨_, _, -, -, -, hindex⟩ := Token.exists_eq_trim inner
    dsimp only
    cases hi : Token.trim inner with
    | nil => exact .fault file file rfl
    | cons t rest =>
      rw [hi] at hindex
      have hsome := mt (Token.unbroken_eq_nil_iff _).1
        (Trimmed.not_blank_tail [] hindex (List.cons_ne_nil t rest))
      rw [if_neg (by simp), if_neg (by simpa using hsome)]
      refine (hr.agrees _ _ _).bind ?_
      rintro ⟨e, m⟩ ⟨e', m'⟩ ⟨⟩
      exact .pure rfl
  · have hopen := bracketed_of_not_closed file l' _ (Blank.nil.ident_ne_opening name .square)
      (mt (Scope.exists_closes_unbroken .square rest).1 hc)
    unfold readAccess
    rw [bracketed_of_not_closed file l _ (hb.ident_ne_opening name .square) hc]
    rw [List.cons_append, List.nil_append] at hopen
    rw [hopen]
    exact unmatched_agrees _ _ .square

/-! ## Prefixes and atoms -/

theorem readPrefixed_agrees (l l' : Nat) {t : Token} (op : String) {rest : List Token}
    (ht : Trimmed (t :: rest)) :
    Agrees SameExpr (readPrefixed file read op l (t :: rest))
      (readPrefixed file read op l' (t :: unbroken rest)) := by
  cases rest with
  | nil => exact .fault file file rfl
  | cons t' rest =>
    have hsome := mt (Token.unbroken_eq_nil_iff _).1
      (Trimmed.not_blank_tail [t] ht (List.cons_ne_nil t' rest))
    obtain ⟨u, us, hu⟩ := List.exists_cons_of_ne_nil hsome
    have hinner := hr.agrees l l' (t' :: rest)
    rw [hu] at hinner ⊢
    refine hinner.bind ?_
    rintro ⟨e, m⟩ ⟨e', m'⟩ ⟨⟩
    exact .pure rfl

theorem readAtom_agrees (l l' : Nat) {t : Token} (kind : Atom) (text : String)
    {rest : List Token} (hne : t ≠ .newline) (ht : Trimmed (t :: rest)) :
    Agrees SameExpr (readAtom file read kind text l (t :: rest))
      (readAtom file read kind text l' (t :: unbroken rest)) := by
  have hop := operation?_agrees hr l l' (show Trimmed ([t] ++ rest) from ht)
  rw [Token.unbroken_cons_of_ne hne] at hop
  unfold readAtom
  refine Agrees.bind hop ?_
  intro r r' hrr
  cases r with
  | some p =>
    cases r' with
    | some p' => exact .pure (Option.some.inj hrr)
    | none => cases hrr
  | none =>
    cases r' with
    | some p' => cases hrr
    | none =>
      cases rest with
      | nil =>
        dsimp only
        split
        · refine (hr.string l l' text).bind ?_
          rintro e _ rfl
          exact .pure rfl
        · exact .pure rfl
      | cons t' rest =>
        have hsome := mt (Token.unbroken_eq_nil_iff _).1
          (Trimmed.not_blank_tail [t] ht (List.cons_ne_nil t' rest))
        obtain ⟨u, us, hu⟩ := List.exists_cons_of_ne_nil hsome
        rw [hu]
        exact .fault file file rfl

theorem readConstruct_agrees (l l' : Nat) {ts : List Token} {c : Construct}
    (h : Construct.Leads ts c) (ht : Trimmed ts) :
    Agrees SameExpr (readConstruct file read l ts c) (readConstruct file read l' (unbroken ts) c) := by
  cases h with
  | parentheses rest =>
    rw [Token.unbroken_cons_of_ne (by simp)]
    exact readGrouped_agrees hr l l' ht
  | prefixed rest h =>
    rw [Token.unbroken_cons_of_ne (by rintro rfl; cases h)]
    exact readPrefixed_agrees hr l l' _ ht
  | list rest =>
    rw [Token.unbroken_cons_of_ne (by simp)]
    exact readListing_agrees hr l l' _ [] (by simp) ht
  | call name rest h =>
    rw [Token.unbroken_append, Token.unbroken_cons_of_ne (t := .opening _) (by simp)]
    exact readListing_agrees hr l l' _ _ (h.ident_ne_opening name .round) ht
  | access name rest h =>
    rw [List.cons_append, Token.unbroken_cons_of_ne (by simp), Token.unbroken_append, h.unbroken_eq,
      Token.unbroken_cons_of_ne (by simp)]
    exact readAccess_agrees hr l l' name h ht
  | atom rest h =>
    have hne := Token.ne_newline_of_atom? h
    rw [Token.unbroken_cons_of_ne hne]
    exact readAtom_agrees hr l l' _ _ hne ht

end

/-! ## Levels -/

theorem ignoresBreaks_read (file : String) (depth : Nat) :
    IgnoresBreaks file (Expr.read file depth) := by
  have hstring (depth l l' : Nat) (raw : String) : Agrees Eq
      (readString file (Expr.read file depth) l raw)
      (readString file (Expr.read file depth) l' raw) := by
    have hlocated := @readString_located file depth l raw [] fun line ts =>
      (located_of_read file depth line ts).mono (fun _ => id) fun _ _ => trivial
    exact .of_carries (readString_carries .any (read_carries .any file file (Nat.le_refl _))
      trivial file file raw) hlocated.list
  induction depth with
  | zero => exact ⟨fun _ _ _ => Or.inl rfl, fun _ _ _ => Or.inl rfl, hstring 0⟩
  | succ depth ih =>
    refine ⟨fun l l' ts => ?_, fun l ts h => ?_, hstring _⟩
    · obtain ⟨_, _, -, -, -, ht⟩ := Token.exists_eq_trim ts
      show Agrees SameExpr (readStep file _ l ts) (readStep file _ l' (unbroken ts))
      rw [readStep_trim l ts, ← Token.unbroken_trim ts]
      have htu := Token.trimmed_unbroken (Token.trim ts)
      cases hc : Construct.of? (Token.trim ts) with
      | none =>
        unfold readStep
        dsimp only
        rw [ht.trimStart_eq, ht.trimEnd_eq, htu.trimStart_eq, htu.trimEnd_eq,
          Construct.of?_unbroken ht, hc]
        exact .fault file file rfl
      | some c =>
        rw [readStep_of_trimmed ht hc,
          readStep_of_trimmed htu (by rw [Construct.of?_unbroken ht, hc])]
        exact readConstruct_agrees ih _ _ (Construct.leads_of_of? ht hc) ht
    · refine Or.inr ?_
      show ∃ f, (readStep file _ l ts).outcome = _
      unfold readStep
      dsimp only
      rw [h.trimStart_eq]
      exact ⟨_, rfl⟩

/-- Line breaks do not matter in an expression: without them the tokens are read as the same
expression or refused for a reason of the same category, wherever they stand, unless reading is too
deep; and from some depth on it is not. -/
theorem read_unbroken (file : String) (line line' : Nat) (ts : List Token) :
    (∀ depth, (Expr.read file depth line ts).outcome = .error .tooDeep ∨
        Stop.Agree SameExpr (Expr.read file depth line ts).outcome
          (Expr.read file depth line' (unbroken ts)).outcome) ∧
      ∃ d, ∀ depth, d ≤ depth → Stop.Agree SameExpr (Expr.read file depth line ts).outcome
        (Expr.read file depth line' (unbroken ts)).outcome := by
  have hagrees (depth : Nat) := (ignoresBreaks_read file depth).agrees line line' ts
  refine ⟨hagrees, Token.weights ts + 1, fun depth hd => ?_⟩
  rcases hagrees depth with h | h
  · exact absurd h (finishes_read file line (by omega))
  · exact h

end Expr

end ModelScript
