import ModelScript.Proofs.Expression.Respaced
import ModelScript.Proofs.Statement.Depth
import ModelScript.Proofs.Statement.Value

/-!
# Statements with more or fewer blank lines

Two readers of statements that are given respaced tokens go the same way: they take corresponding
tokens, come to the same result and leave respaced tokens for what follows, or both stop at the same
problem.  A line break counts for what it is next to, as the end of a statement, inside of a value
or between lines, and in each of these places a second one behind it adds nothing.  One lemma for
each reader says so, over any readers for what stands inside that go the same way, and so do the
readers at all levels (`tracks_atDepth`), of which the second may go deeper.
-/

namespace ModelScript

open Token (Blank enclose)
open Reading (Tracks)

/-! ## Values -/

namespace Respaced

/-- Values go to corresponding places. -/
theorem valueLength {ts us : List Token} (h : Respaced ts us) (depth : Nat)
    (previous : Option Token) :
    Respaced (ts.take (Unread.valueLength depth previous ts))
        (us.take (Unread.valueLength depth previous us)) ∧
      Respaced (ts.drop (Unread.valueLength depth previous ts))
        (us.drop (Unread.valueLength depth previous us)) := by
  induction h generalizing depth previous with
  | nil => exact ⟨.nil, .nil⟩
  | @token t ts us ht h ih =>
    rw [Unread.valueLength_cons ht, Unread.valueLength_cons ht]
    cases t.valueDepth? depth with
    | none => exact ⟨.nil, .token ht h⟩
    | some d =>
      obtain ⟨htake, hdrop⟩ := ih d (some t)
      exact ⟨.token ht htake, hdrop⟩
  | @breaks as bs ts us ha hb h ih =>
    have hgo (us : List Token) (hus : Unread.continues previous us = Unread.continues previous ts)
        {bs : List Token} (hb : Blank bs) :
        Unread.valueLength depth previous (.newline :: (bs ++ us))
          = if depth = 0 && !Unread.continues previous ts then 0
            else (bs.length + Unread.valueLength depth previous us) + 1 := by
      rw [Unread.valueLength, Unread.continues_blank_append previous hb, hus]
      split
      · rfl
      · next hc =>
        rw [← hus] at hc
        rw [Unread.valueLength_blank_append hb (Bool.eq_false_iff.2 hc)]
    have hcontinues : Unread.continues previous us = Unread.continues previous ts := by
      unfold Unread.continues
      rw [h.significant?_eq]
    rw [hgo ts rfl ha, hgo us hcontinues hb]
    split
    · exact ⟨.nil, .breaks ha hb h⟩
    · obtain ⟨htake, hdrop⟩ := ih depth previous
      simp only [List.take_succ_cons, List.drop_succ_cons, List.take_length_add_append,
        List.drop_length_add_append]
      exact ⟨.breaks ha hb htake, hdrop⟩

end Respaced

/-! ## Readers -/

/-- The same result, and respaced tokens left. -/
def Abreast {α : Type} (a b : α × Unread) : Prop := a.1 = b.1 ∧ Respaced a.2.tokens b.2.tokens

/-- Readers that go the same way from respaced tokens. -/
def Reader.Tracks {α : Type} (p q : Reader α) : Prop :=
  ∀ {u v : Unread}, Respaced u.tokens v.tokens → Reading.Tracks Abreast (p u) (q v)

/-- Readers of all tokens that go the same way. -/
def WholeReader.Tracks {α : Type} (p q : WholeReader α) : Prop :=
  ∀ {u v : Unread}, Respaced u.tokens v.tokens → Reading.Tracks SameResult (p u) (q v)

namespace Reading.Tracks

variable {α γ δ : Type} {B : γ → δ → Prop}

theorem andThen {x y : Reading (α × Unread)} {f : α × Unread → Reading γ}
    {g : α × Unread → Reading δ} (h : Tracks Abreast x y)
    (hf : ∀ a u v, Respaced u.tokens v.tokens → Tracks B (f (a, u)) (g (a, v))) :
    Tracks B (x >>= f) (y >>= g) := by
  refine h.bind ?_
  rintro ⟨a, u⟩ ⟨_, v⟩ ⟨rfl, huv⟩
  exact hf a u v huv

theorem result {x y : Reading (α × Nat)} {f : α × Nat → Reading γ} {g : α × Nat → Reading δ}
    (h : Tracks SameResult x y) (hf : ∀ a l l', Tracks B (f (a, l)) (g (a, l'))) :
    Tracks B (x >>= f) (y >>= g) := by
  refine h.bind ?_
  rintro ⟨a, l⟩ ⟨_, l'⟩ ⟨rfl, -⟩
  exact hf a l l'

theorem yielding {β : Type} {A : α → β → Prop} {x : Reading α} {y : Reading β}
    (h : Tracks A x y) :
    Tracks (fun a b => A a b ∧ (∃ n, x.Yields n a) ∧ ∃ n, y.Yields n b) x y := by
  obtain ⟨ex, ox⟩ := x
  obtain ⟨ey, oy⟩ := y
  rcases h with h | ⟨he, h⟩
  · exact .tooDeep h
  · refine Or.inr ⟨he, ?_⟩
    cases h with
    | ok h => exact .ok ⟨h, ⟨_, rfl, rfl⟩, ⟨_, rfl, rfl⟩⟩
    | fault h => exact .fault h
    | noList k => exact .noList k

/-- What is read to the end in a known line is read up to that line. -/
theorem yields_last {file : String} {v : Unread} {n line last : Nat} {a : α}
    {x y : Reading (α × Nat)} (h : Tracks SameResult x y)
    (hy : Logged.Located file v (fun b => b.2 = last) y) (hx : x.Yields n (a, line)) :
    y.Yields n (a, last) := by
  obtain ⟨⟨_, line'⟩, hyields, rfl, -⟩ := h.yields hx
  obtain rfl : line' = last := hy.result hyields
  exact hyields

end Reading.Tracks

/-! ## Tokens -/

namespace Unread

variable {u v : Unread}

theorem accept?_tracks {k : Kind} (hk : k ≠ .newline) (h : Respaced u.tokens v.tokens) :
    Option.Rel Abreast (u.accept? k) (v.accept? k) := by
  obtain ⟨ts, l⟩ := u
  obtain ⟨us, l'⟩ := v
  have hne (ts : List Token) (l : Nat) : (⟨.newline :: ts, l⟩ : Unread).accept? k = none := by
    simp [accept?, Token.kind, hk.symm]
  cases h with
  | nil => exact .none
  | breaks =>
    rw [hne, hne]
    exact .none
  | @token t ts us ht h =>
    unfold accept?
    dsimp only
    split
    · exact .some ⟨rfl, h⟩
    · exact .none

theorem require_tracks (file file' : String) {k : Kind} (hk : k ≠ .newline) :
    Reader.Tracks (require file k) (require file' k) := by
  intro u v h
  have ha := accept?_tracks hk h
  unfold require
  rw [h.head?_eq]
  generalize u.accept? k = x at ha
  generalize v.accept? k = y at ha
  cases ha with
  | none => exact .fault _ _ _ _ _
  | some ha => exact .pure ha

theorem word_tracks (file file' : String) (k : Keyword) (h : Respaced u.tokens v.tokens) :
    Tracks (fun u v => Respaced u.tokens v.tokens) (u.word file k) (v.word file' k) :=
  Reading.Carries.map (require_tracks file file' (by simp) h) fun _ _ h => h.2

theorem word_andThen_tracks {γ δ : Type} {B : γ → δ → Prop} (file file' : String) (k : Keyword)
    {f : Unread → Reading γ} {g : Unread → Reading δ} (h : Respaced u.tokens v.tokens)
    (hf : ∀ u v, Respaced u.tokens v.tokens → Tracks B (f u) (g v)) :
    Tracks B (u.word file k >>= f) (v.word file' k >>= g) :=
  (word_tracks file file' k h).bind hf

theorem identifier_tracks (file file' : String) :
    Reader.Tracks (identifier file) (identifier file') := by
  intro u v h
  obtain ⟨ts, l⟩ := u
  obtain ⟨us, l'⟩ := v
  cases h with
  | nil => exact .fault _ _ _ _ _
  | breaks => exact .fault _ _ _ _ _
  | @token t ts us ht h =>
    cases t with
    | ident name => exact .pure ⟨rfl, h⟩
    | _ => exact .fault _ _ _ _ _

theorem requireEnd_tracks (file file' : String) (h : Respaced u.tokens v.tokens) :
    Tracks (fun _ _ => True) (u.requireEnd file) (v.requireEnd file') := by
  obtain ⟨ts, l⟩ := u
  obtain ⟨us, l'⟩ := v
  cases h with
  | nil => exact .pure trivial
  | breaks => exact .pure trivial
  | @token t ts us ht h =>
    cases t with
    | newline => exact .pure trivial
    | _ => exact .fault _ _ _ _ _

theorem startsWith_tracks (k : Kind) (h : Respaced u.tokens v.tokens) :
    u.startsWith k = v.startsWith k := by
  unfold startsWith kind?
  rw [h.head?_eq]

end Unread

namespace Inner

/-- What is known of two families of readers for what stands inside: they go the same way, and they
take tokens. -/
structure Tracks (r r' : Inner) : Prop where
  expression : r.expression.Tracks r'.expression
  type : r.type.Tracks r'.type
  statement : r.statement.Tracks r'.statement
  keeps : r.Keeps
  keeps' : r'.Keeps

variable {r r' : Inner} {α : Type}

/-! ## Values, types and scopes -/

theorem Tracks.value (hr : r.Tracks r') : r.value.Tracks r'.value := by
  intro u v h
  obtain ⟨htake, hdrop⟩ := h.valueLength 0 none
  unfold Inner.value
  have hnil {ts : List Token} :
      ts.take (Unread.valueLength 0 none ts) = [] ↔ Unread.valueLength 0 none ts = 0 := by
    rw [List.take_eq_nil_iff]
    constructor
    · rintro (h | rfl)
      · exact h
      · rfl
    · exact Or.inl
  dsimp only
  by_cases hlen : Unread.valueLength 0 none u.tokens = 0
  · rw [if_pos hlen, if_pos (hnil.1 (htake.eq_nil_iff.1 (hnil.2 hlen))), h.head?_eq]
    exact .fault _ _ _ _ _
  · rw [if_neg hlen, if_neg fun h' => hlen (hnil.1 (htake.eq_nil_iff.2 (hnil.2 h')))]
    exact (hr.expression _ _ htake).result fun e _ _ => .pure ⟨rfl, hdrop⟩

theorem Tracks.readType (hr : r.Tracks r') : r.readType.Tracks r'.readType := by
  intro u v h
  refine (Unread.identifier_tracks _ _ h).andThen fun name u v h => ?_
  have ha := Unread.accept?_tracks (k := .keyword .of) (by simp) h
  dsimp only
  generalize u.accept? (.keyword .of) = x at ha
  generalize v.accept? (.keyword .of) = y at ha
  cases ha with
  | none => exact .pure ⟨rfl, h⟩
  | some ha => exact (hr.type ha.2).andThen fun element u v h => .pure ⟨rfl, h⟩

theorem Tracks.typeAfter (hr : r.Tracks r') (k : Keyword) :
    (r.typeAfter k).Tracks (r'.typeAfter k) := by
  intro u v h
  have ha := Unread.accept?_tracks (k := .keyword k) (by simp) h
  unfold Inner.typeAfter
  generalize u.accept? (.keyword k) = x at ha
  generalize v.accept? (.keyword k) = y at ha
  cases ha with
  | none => exact .pure ⟨rfl, h⟩
  | some ha => exact (hr.type ha.2).andThen fun type u v h => .pure ⟨rfl, h⟩

theorem Tracks.valueAfter (hr : r.Tracks r') (k : Keyword) :
    (r.valueAfter k).Tracks (r'.valueAfter k) := by
  intro u v h
  have ha := Unread.accept?_tracks (k := .keyword k) (by simp) h
  unfold Inner.valueAfter
  generalize u.accept? (.keyword k) = x at ha
  generalize v.accept? (.keyword k) = y at ha
  cases ha with
  | none => exact .pure ⟨rfl, h⟩
  | some ha => exact (hr.value ha.2).andThen fun e u v h => .pure ⟨rfl, h⟩

/-- Corresponding brackets are closed by corresponding ones, or none of them is closed. -/
theorem within_tracks (b : Bracket) {body body' : WholeReader α} (hb : body.Tracks body') :
    (r.within b body).Tracks (r'.within b body') := by
  intro u v h
  refine (Unread.require_tracks _ _ (by simp) h).andThen fun t u v h => ?_
  dsimp only
  by_cases hc : ∃ inner tail, u.tokens = inner ++ .closing b :: tail ∧ Scope.Closes b inner
  · obtain ⟨inner, tail, hu, hc⟩ := hc
    rw [hu] at h
    obtain ⟨inner', tail', hv, hi, ht⟩ := h.exists_of_append_cons (by simp)
    have hclose := (Scope.close?_eq_some_iff b _ _).2 ⟨inner, tail, hu, hc, rfl⟩
    have hclose' := (Scope.close?_eq_some_iff b _ _).2
      ⟨inner', tail', hv, (hi.closes_iff b).1 hc, rfl⟩
    have htail (inner tail : List Token) :
        (inner ++ .closing b :: tail).drop (inner.length + 1) = tail := by
      rw [List.append_cons, List.drop_left' (by simp)]
    rw [hclose, hclose']
    dsimp only
    rw [hu, hv, List.take_left, List.take_left, htail, htail]
    exact (hb hi).result fun a _ _ => .pure ⟨rfl, ht⟩
  · rw [(Scope.close?_eq_none_iff b _).2 hc,
      (Scope.close?_eq_none_iff b _).2 (mt (h.exists_closes_iff b).2 hc)]
    exact .fault _ _ _ _ _

/-! ## Bodies -/

theorem lines_tracks {item item' : Reader α} (hi : item.Tracks item')
    (htakes : ∀ {u v n a}, (item u).Yields n (a, v) → v.tokens.length < u.tokens.length)
    (htakes' : ∀ {u v n a}, (item' u).Yields n (a, v) → v.tokens.length < u.tokens.length)
    {fuel fuel' : Nat} {u v : Unread} (hf : u.tokens.length ≤ fuel)
    (hf' : v.tokens.length ≤ fuel') (h : Respaced u.tokens v.tokens) :
    Reading.Tracks SameResult (r.lines item fuel u) (r'.lines item' fuel' v) := by
  induction fuel generalizing fuel' u v with
  | zero =>
    have hu := List.eq_nil_of_length_eq_zero (Nat.le_zero.1 hf)
    have hv := h.eq_nil_iff.1 hu
    rw [r.lines_of_blank item 0 (by simp [Unread.skipNewlines, hu, Token.trimStart]),
      r'.lines_of_blank item' fuel' (by simp [Unread.skipNewlines, hv, Token.trimStart])]
    exact .pure ⟨rfl, trivial⟩
  | succ fuel ih =>
    have hskip : Respaced u.skipNewlines.tokens v.skipNewlines.tokens := h.trimStart
    by_cases hb : u.skipNewlines.tokens = []
    · rw [r.lines_of_blank item _ hb, r'.lines_of_blank item' _ (hskip.eq_nil_iff.1 hb)]
      exact .pure ⟨rfl, trivial⟩
    · have hb' := mt hskip.eq_nil_iff.2 hb
      have hle := (Took.refl u.skipNewlines).of_skipNewlines.length_le
      have hle' := (Took.refl v.skipNewlines).of_skipNewlines.length_le
      have hpos := List.length_pos_of_ne_nil hb'
      obtain ⟨fuel', rfl⟩ : ∃ k, fuel' = k + 1 := ⟨fuel' - 1, by omega⟩
      rw [r.lines_of_not_blank item fuel hb, r'.lines_of_not_blank item' fuel' hb']
      refine (hi hskip).yielding.bind ?_
      rintro ⟨a, w⟩ ⟨_, w'⟩ ⟨⟨rfl, hw⟩, ⟨n, hy⟩, ⟨m, hy'⟩⟩
      have hlt := htakes hy
      have hlt' := htakes' hy'
      refine (Unread.requireEnd_tracks _ _ hw).bind fun _ _ _ => ?_
      dsimp only at hw ⊢
      exact (ih (by omega) (by omega) hw).result fun as _ _ => .pure ⟨rfl, trivial⟩

theorem Tracks.statements (hr : r.Tracks r') : r.statements.Tracks r'.statements :=
  fun h => lines_tracks hr.statement (fun hy => (hr.keeps.statement hy).2)
    (fun hy => (hr.keeps'.statement hy).2) (Nat.le_refl _) (Nat.le_refl _) h

theorem Tracks.block (hr : r.Tracks r') : r.block.Tracks r'.block :=
  fun h => within_tracks .curly hr.statements h.trimStart

/-! ## Models -/

theorem Tracks.parameter (hr : r.Tracks r') : r.parameter.Tracks r'.parameter := by
  intro u v h
  refine (Unread.identifier_tracks _ _ h).andThen fun name u v h => ?_
  refine Unread.word_andThen_tracks _ _ _ h fun u v h => ?_
  exact (hr.type h).andThen fun type u v h => .pure ⟨rfl, h⟩

theorem Tracks.parametersFrom (hr : r.Tracks r') {fuel fuel' : Nat} {u v : Unread}
    (hf : u.tokens.length ≤ fuel) (hf' : v.tokens.length ≤ fuel')
    (h : Respaced u.tokens v.tokens) :
    Reading.Tracks SameResult (r.parametersFrom fuel u) (r'.parametersFrom fuel' v) := by
  induction fuel generalizing fuel' u v with
  | zero =>
    have hu := List.eq_nil_of_length_eq_zero (Nat.le_zero.1 hf)
    have hv := h.eq_nil_iff.1 hu
    rw [r.parametersFrom_of_blank 0 (by simp [Unread.skipNewlines, hu, Token.trimStart]),
      r'.parametersFrom_of_blank fuel' (by simp [Unread.skipNewlines, hv, Token.trimStart])]
    exact .pure ⟨rfl, trivial⟩
  | succ fuel ih =>
    have hskip : Respaced u.skipNewlines.tokens v.skipNewlines.tokens := h.trimStart
    by_cases hb : u.skipNewlines.tokens = []
    · rw [r.parametersFrom_of_blank _ hb, r'.parametersFrom_of_blank _ (hskip.eq_nil_iff.1 hb)]
      exact .pure ⟨rfl, trivial⟩
    · have hb' := mt hskip.eq_nil_iff.2 hb
      have hle := (Took.refl u.skipNewlines).of_skipNewlines.length_le
      have hle' := (Took.refl v.skipNewlines).of_skipNewlines.length_le
      have hpos := List.length_pos_of_ne_nil hb'
      obtain ⟨fuel', rfl⟩ : ∃ k, fuel' = k + 1 := ⟨fuel' - 1, by omega⟩
      rw [r.parametersFrom_of_not_blank fuel hb, r'.parametersFrom_of_not_blank fuel' hb']
      refine (hr.parameter hskip).yielding.bind ?_
      rintro ⟨p, w⟩ ⟨_, w'⟩ ⟨⟨rfl, hw⟩, ⟨n, hy⟩, ⟨m, hy'⟩⟩
      have hlt := (hr.keeps.parameter hy).2
      have hlt' := (hr.keeps'.parameter hy').2
      have hsw : Respaced w.skipNewlines.tokens w'.skipNewlines.tokens := hw.trimStart
      have hlw := (Took.refl w.skipNewlines).of_skipNewlines.length_le
      have hlw' := (Took.refl w'.skipNewlines).of_skipNewlines.length_le
      dsimp only
      by_cases hend : w.skipNewlines.tokens = []
      · rw [if_pos (by simp [hend]), if_pos (by simp [hsw.eq_nil_iff.1 hend])]
        exact .pure ⟨rfl, trivial⟩
      · rw [if_neg (by simpa using hend), if_neg (by simpa using mt hsw.eq_nil_iff.2 hend)]
        refine (Unread.require_tracks _ _ (by simp) hsw).yielding.bind ?_
        rintro ⟨t, x⟩ ⟨_, x'⟩ ⟨⟨rfl, hx⟩, ⟨n, hy⟩, ⟨m, hy'⟩⟩
        have hlx := congrArg List.length (Unread.eq_of_require hy).2.1
        have hlx' := congrArg List.length (Unread.eq_of_require hy').2.1
        rw [List.length_cons] at hlx hlx'
        dsimp only at hx ⊢
        exact (ih (by omega) (by omega) hx).result fun ps _ _ => .pure ⟨rfl, trivial⟩

theorem Tracks.parameters (hr : r.Tracks r') : r.parameters.Tracks r'.parameters :=
  fun h => hr.parametersFrom (Nat.le_refl _) (Nat.le_refl _) h

theorem modifier_tracks (k : Keyword) {u v : Unread} (h : Respaced u.tokens v.tokens) :
    Abreast (modifier k u) (modifier k v) := by
  have ha := Unread.accept?_tracks (k := .keyword k) (by simp) h
  unfold modifier
  generalize u.accept? (.keyword k) = x at ha
  generalize v.accept? (.keyword k) = y at ha
  cases ha with
  | none => exact ⟨rfl, h⟩
  | some ha => exact ⟨rfl, ha.2⟩

theorem Tracks.member (hr : r.Tracks r') : r.member.Tracks r'.member := by
  intro u v h
  obtain ⟨hprivate, hu⟩ := modifier_tracks .private' h
  obtain ⟨hstatic, hu'⟩ := modifier_tracks .static hu
  unfold Inner.member
  dsimp only
  rw [hprivate, hstatic]
  refine (Unread.identifier_tracks _ _ hu').andThen fun name u v h => ?_
  have ha := Unread.accept?_tracks (k := .keyword .as') (by simp) h
  dsimp only
  generalize u.accept? (.keyword .as') = x at ha
  generalize v.accept? (.keyword .as') = y at ha
  cases ha with
  | some ha =>
    refine (hr.type ha.2).andThen fun type u v h => ?_
    exact (hr.valueAfter .default h).andThen fun initial u v h => .pure ⟨rfl, h⟩
  | none =>
    refine (hr.typeAfter .return' h).andThen fun returns u v h => ?_
    refine Unread.word_andThen_tracks _ _ _ h fun u v h => ?_
    refine (within_tracks .round hr.parameters h).andThen fun parameters u v h => ?_
    exact (hr.block h).andThen fun body u v h => .pure ⟨rfl, h⟩

theorem Tracks.members (hr : r.Tracks r') : r.members.Tracks r'.members :=
  fun h => lines_tracks hr.member (fun hy => (hr.keeps.member hy).2)
    (fun hy => (hr.keeps'.member hy).2) (Nat.le_refl _) (Nat.le_refl _) h

theorem Tracks.model (hr : r.Tracks r') : r.model.Tracks r'.model := by
  intro u v h
  refine Unread.word_andThen_tracks _ _ _ h fun u v h => ?_
  refine (Unread.identifier_tracks _ _ h).andThen fun name u v h => ?_
  refine (within_tracks .curly hr.members h.trimStart).andThen fun members u v h => ?_
  exact .pure ⟨rfl, h⟩

/-! ## Variables and control flow -/

theorem Tracks.declaration (hr : r.Tracks r') : r.declaration.Tracks r'.declaration := by
  intro u v h
  refine Unread.word_andThen_tracks _ _ _ h fun u v h => ?_
  refine (Unread.identifier_tracks _ _ h).andThen fun name u v h => ?_
  refine (hr.typeAfter .as' h).andThen fun type u v h => ?_
  refine Unread.word_andThen_tracks _ _ _ h fun u v h => ?_
  exact (hr.value h).andThen fun value u v h => .pure ⟨rfl, h⟩

theorem Tracks.index (hr : r.Tracks r') : r.index.Tracks r'.index := by
  intro u v h
  have hskip : Respaced u.skipNewlines.tokens v.skipNewlines.tokens := h.trimStart
  unfold Inner.index
  dsimp only
  by_cases hnil : u.skipNewlines.tokens = []
  · rw [if_pos (by simp [hnil]), if_pos (by simp [hskip.eq_nil_iff.1 hnil])]
    exact .fault _ _ _ _ _
  · rw [if_neg (by simpa using hnil), if_neg (by simpa using mt hskip.eq_nil_iff.2 hnil)]
    exact (hr.expression _ _ hskip).result fun e _ _ => .pure ⟨rfl, trivial⟩

theorem Tracks.indexIfAny (hr : r.Tracks r') : r.indexIfAny.Tracks r'.indexIfAny := by
  intro u v h
  unfold Inner.indexIfAny
  rw [Unread.startsWith_tracks _ h]
  split
  · exact (within_tracks .square hr.index h).andThen fun e u v h => .pure ⟨rfl, h⟩
  · exact .pure ⟨rfl, h⟩

theorem Tracks.change (hr : r.Tracks r') : r.change.Tracks r'.change := by
  intro u v h
  refine Unread.word_andThen_tracks _ _ _ h fun u v h => ?_
  refine (Unread.identifier_tracks _ _ h).andThen fun name u v h => ?_
  refine (hr.indexIfAny h).andThen fun index u v h => ?_
  refine Unread.word_andThen_tracks _ _ _ h fun u v h => ?_
  exact (hr.value h).andThen fun value u v h => .pure ⟨rfl, h⟩

theorem Tracks.otherwise (hr : r.Tracks r') : r.otherwise.Tracks r'.otherwise := by
  intro u v h
  have hskip : Respaced u.skipNewlines.tokens v.skipNewlines.tokens := h.trimStart
  have ha := Unread.accept?_tracks (k := .keyword .else') (by simp) hskip
  unfold Inner.otherwise
  generalize u.skipNewlines.accept? (.keyword .else') = x at ha
  generalize v.skipNewlines.accept? (.keyword .else') = y at ha
  cases ha with
  | none => exact .pure ⟨rfl, h⟩
  | some ha =>
    dsimp only
    rw [Unread.startsWith_tracks _ ha.2]
    split
    · exact (hr.statement ha.2).andThen fun s u v h => .pure ⟨rfl, h⟩
    · exact (hr.block ha.2).andThen fun body u v h => .pure ⟨rfl, h⟩

theorem Tracks.conditional (hr : r.Tracks r') : r.conditional.Tracks r'.conditional := by
  intro u v h
  refine Unread.word_andThen_tracks _ _ _ h fun u v h => ?_
  refine (hr.value h).andThen fun condition u v h => ?_
  refine (hr.block h).andThen fun body u v h => ?_
  exact (hr.otherwise h).andThen fun otherwise u v h => .pure ⟨rfl, h⟩

theorem Tracks.loop (hr : r.Tracks r') : r.loop.Tracks r'.loop := by
  intro u v h
  refine Unread.word_andThen_tracks _ _ _ h fun u v h => ?_
  refine (hr.value h).andThen fun condition u v h => ?_
  exact (hr.block h).andThen fun body u v h => .pure ⟨rfl, h⟩

theorem Tracks.bare (hr : r.Tracks r') {u v : Unread} (h : Respaced u.tokens v.tokens) :
    Reading.Tracks Abreast
      (do let (value, u) ← r.value u; return (Statement.bare value, u))
      (do let (value, v) ← r'.value v; return (Statement.bare value, v)) :=
  (hr.value h).andThen fun _ _ _ h => .pure ⟨rfl, h⟩

theorem Tracks.result (hr : r.Tracks r') : r.result.Tracks r'.result := by
  intro u v h
  refine Unread.word_andThen_tracks _ _ _ h fun u v h => ?_
  have hvalue : Reading.Tracks Abreast
      (do let (value, u) ← r.value u; return (Statement.result (some value), u))
      (do let (value, v) ← r'.value v; return (Statement.result (some value), v)) :=
    (hr.value h).andThen fun _ _ _ h => .pure ⟨rfl, h⟩
  obtain ⟨ts, l⟩ := u
  obtain ⟨us, l'⟩ := v
  cases h with
  | nil => exact .pure ⟨rfl, .nil⟩
  | breaks ha hb h => exact .pure ⟨rfl, .breaks ha hb h⟩
  | @token t ts us ht h =>
    cases t with
    | newline => exact absurd rfl ht
    | _ => exact hvalue

/-! ## Levels -/

theorem Tracks.readStatement (hr : r.Tracks r') : r.readStatement.Tracks r'.readStatement := by
  intro u v h
  have hall := h
  obtain ⟨ts, l⟩ := u
  obtain ⟨us, l'⟩ := v
  cases h with
  | nil => exact hr.bare hall
  | breaks => exact hr.bare hall
  | @token t ts us ht h =>
    cases t with
    | keyword k =>
      cases k with
      | describe => exact hr.model hall
      | let' => exact hr.declaration hall
      | make => exact hr.change hall
      | if' => exact hr.conditional hall
      | while' => exact hr.loop hall
      | return' => exact hr.result hall
      | _ => exact hr.bare hall
    | _ => exact hr.bare hall

/-- Readers at two levels, of which the second is no lower, go the same way in whatever files. -/
theorem tracks_atDepth (file file' : String) {depth depth' : Nat} (h : depth ≤ depth') :
    (Inner.atDepth file depth).Tracks (Inner.atDepth file' depth') := by
  have hexpression {depth depth' : Nat} (h : depth ≤ depth') :
      (Inner.atDepth file depth).expression.Tracks (Inner.atDepth file' depth').expression := by
    rw [atDepth_expression, atDepth_expression]
    exact Expr.read_tracks file file' h
  induction depth generalizing depth' with
  | zero =>
    exact ⟨hexpression h, fun _ => .tooDeep rfl, fun _ => .tooDeep rfl, keeps_atDepth file 0,
      keeps_atDepth file' depth'⟩
  | succ depth ih =>
    obtain ⟨k, rfl⟩ : ∃ k, depth' = k + 1 := ⟨depth' - 1, by omega⟩
    have hr := ih (Nat.le_of_succ_le_succ h)
    exact ⟨hexpression h, hr.readType, hr.readStatement, keeps_atDepth file _,
      keeps_atDepth file' _⟩

end Inner

/-! ## Files -/

/-- What is read at some depth is read at every greater one, in any file and from any line, up to
the line behind the last token, with any fuel that is enough. -/
theorem yields_lines_of_parse {depth depth' n line last : Nat} {file : String} {ts : List Token}
    {body : List Statement} (hd : depth ≤ depth')
    (h : (parseWithin depth file ⟨ts, line⟩).Yields n (body, last)) (file' : String)
    (line' : Nat) {fuel : Nat} (hf : ts.length ≤ fuel) :
    ((Inner.atDepth file' depth').lines (Inner.atDepth file' depth').statement fuel
      ⟨ts, line'⟩).Yields n (body, line' + Token.newlines ts) := by
  have hr := Inner.tracks_atDepth file file' hd
  have htakes {u v : Unread} {n : Nat} {s : Statement}
      (hy : ((Inner.atDepth file' depth').statement u).Yields n (s, v)) :
      v.tokens.length < u.tokens.length := (hr.keeps'.statement hy).2
  have htracks : Reading.Tracks SameResult ((Inner.atDepth file depth).statements ⟨ts, line⟩)
      ((Inner.atDepth file' depth').lines _ fuel ⟨ts, line'⟩) :=
    Inner.lines_tracks hr.statement (fun hy => (hr.keeps.statement hy).2) htakes (Nat.le_refl _) hf
      (.refl ts)
  have hlocated := Inner.lines_located (r := Inner.atDepth file' depth') (u := ⟨ts, line'⟩)
    (Inner.located_atDepth file' depth').statement htakes hf
  exact htracks.yields_last hlocated ((yields_parseWithin_iff _ _ _ _ _).1 h)

/-- Respaced files are read alike at every depth, from whatever lines. -/
theorem parseWithin_same_of_respaced (depth : Nat) (file : String) {u v : Unread}
    (h : Respaced u.tokens v.tokens) :
    Reading.Same (fun p q => p.1 = q.1) (parseWithin depth file u) (parseWithin depth file v) := by
  have hr := Inner.tracks_atDepth file file (Nat.le_refl depth)
  have hlist := ((Inner.located_atDepth file depth).statements u).list
  have hsame : Reading.Same SameResult ((Inner.atDepth file depth).statements u)
      ((Inner.atDepth file depth).statements v) :=
    .of_tracks (hr.statements h) (hr.statements h.symm) hlist
  refine hsame.map ?_
  rintro ⟨body, line⟩ ⟨_, line'⟩ ⟨rfl, -⟩
  exact ⟨(body, line), (body, line'), ⟨rfl, rfl⟩, ⟨rfl, rfl⟩, rfl⟩

/-- Blank lines do not matter in a file.  When each run of line breaks is shortened to one, the file
is read as the same statements with as many warnings, or refused for the same problem, or too deep
as before; and from some depth on it is not too deep. -/
theorem parse_collapse (file : String) (line line' : Nat) (ts : List Token) :
    (∀ depth, Reading.Same (fun p q => p.1 = q.1) (parseWithin depth file ⟨ts, line⟩)
        (parseWithin depth file ⟨Token.collapse ts, line'⟩)) ∧
      ∃ d, ∀ depth, d ≤ depth → (parseWithin depth file ⟨ts, line⟩).outcome ≠ .error .tooDeep := by
  have hsame (depth : Nat) := parseWithin_same_of_respaced depth file (u := ⟨ts, line⟩)
    (v := ⟨Token.collapse ts, line'⟩) (.collapse ts)
  refine ⟨hsame, Token.weights ts + 2, fun depth hd => finishes_parseWithin file ?_⟩
  dsimp only
  omega

end ModelScript
