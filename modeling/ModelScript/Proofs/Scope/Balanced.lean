import ModelScript.Proofs.Scope.Closing

/-!
# Balanced tokens

Tokens whose parentheses and square brackets belong together, as those of an expression do.
Whatever counts depths passes over them: the search for a close (`Balanced.passes`), and the search
for commas, which is told here by the segments that it cuts (`Balanced.segments_append`).
-/

namespace ModelScript.Scope

/-! ## Balanced tokens -/

/-- Parentheses and square brackets are closed in the order in which they were opened, and there are
no curly braces.  `commas` says whether commas may stand outside of all brackets. -/
inductive Balanced : Bool → List Token → Prop
  | nil (commas : Bool) : Balanced commas []
  | token (commas : Bool) {t : Token} (ho : ∀ b, t ≠ .opening b) (hc : ∀ b, t ≠ .closing b)
    (h : commas = false → t ≠ .mark .comma) : Balanced commas [t]
  | scope (commas : Bool) {b : Bracket} {ts : List Token} (hb : b ≠ .curly)
    (h : Balanced true ts) : Balanced commas (Token.enclose b ts)
  | append {commas : Bool} {ts us : List Token} (h : Balanced commas ts)
    (h' : Balanced commas us) : Balanced commas (ts ++ us)

theorem Balanced.allow {commas : Bool} {ts : List Token} (h : Balanced commas ts) :
    Balanced true ts := by
  induction h with
  | nil => exact .nil true
  | token commas ho hc h => exact .token true ho hc (fun h => by cases h)
  | scope commas hb h _ => exact .scope true hb h
  | append _ _ ih ih' => exact ih.append ih'

/-! ## Closes -/

/-- Looking for the close of a shape of bracket passes over these tokens, at whatever depth. -/
def Passes (b : Bracket) (ts : List Token) : Prop :=
  ∀ depth rest, 1 ≤ depth →
    close? (.mark (.opening b)) (.mark (.closing b)) depth (ts ++ rest)
      = (· + ts.length) <$> close? (.mark (.opening b)) (.mark (.closing b)) depth rest

theorem Passes.nil (b : Bracket) : Passes b [] := by
  intro depth rest _
  simp

theorem Passes.append {b : Bracket} {ts us : List Token} (h : Passes b ts) (h' : Passes b us) :
    Passes b (ts ++ us) := by
  intro depth rest hd
  rw [List.append_assoc, h _ _ hd, h' _ _ hd, List.length_append]
  simp only [Option.map_eq_map, Option.map_map]
  congr 1
  funext n
  simp only [Function.comp_apply]
  omega

theorem Passes.cons {b : Bracket} {t : Token} {ts : List Token} (h : Passes b ts)
    (ho : t ≠ .opening b) (hc : t ≠ .closing b) : Passes b (t :: ts) := by
  intro depth rest hd
  have ho' := (not_congr (Token.kind_eq_mark_iff t _)).2 ho
  have hc' := (not_congr (Token.kind_eq_mark_iff t _)).2 hc
  rw [List.cons_append, close?, if_neg ho', if_neg hc', h _ _ hd]
  simp only [Option.map_eq_map, Option.map_map]
  congr 1

theorem Passes.keyword {b : Bracket} (k : Keyword) {ts : List Token} (h : Passes b ts) :
    Passes b (.keyword k :: ts) := h.cons (by simp) (by simp)

theorem Passes.ident {b : Bracket} (name : String) {ts : List Token} (h : Passes b ts) :
    Passes b (.ident name :: ts) := h.cons (by simp) (by simp)

theorem Passes.newline {b : Bracket} {ts : List Token} (h : Passes b ts) :
    Passes b (.newline :: ts) := h.cons (by simp) (by simp)

theorem Passes.enclose (b' : Bracket) {b : Bracket} {ts : List Token} (h : Passes b ts) :
    Passes b (Token.enclose b' ts) := by
  by_cases hb : b' = b
  · subst hb
    intro depth rest hd
    have h1 : (Token.opening b').kind = .mark (.opening b') := rfl
    have h2 : ¬ (Token.closing b').kind = .mark (.opening b') := by simp [Token.kind]
    have h3 : (Token.closing b').kind = .mark (.closing b') := rfl
    rw [Token.enclose_append, Token.length_enclose, close?, if_pos h1, h _ _ (by omega), close?,
      if_neg h2, if_pos h3, if_neg (by omega)]
    simp only [Option.map_eq_map, Option.map_map, Nat.add_sub_cancel]
    congr 1
    funext n
    simp only [Function.comp_apply]
    omega
  · have hopen : Passes b (.opening b' :: ts) := h.cons (by simpa using hb) (by simp)
    have hclose : Passes b [.closing b'] := (Passes.nil b).cons (by simp) (by simpa using hb)
    exact hopen.append hclose

theorem Passes.closes {b : Bracket} {ts : List Token} (h : Passes b ts) : Closes b ts := by
  unfold Closes
  rw [h _ _ (Nat.le_refl 1)]
  simp [close?, Token.kind]

theorem Balanced.passes {commas : Bool} {ts : List Token} (h : Balanced commas ts) (b : Bracket) :
    Passes b ts := by
  induction h with
  | nil => exact .nil b
  | token commas ho hc _ => exact (Passes.nil b).cons (ho b) (hc b)
  | scope commas hb _ ih => exact ih.enclose _
  | append _ _ ih ih' => exact ih.append ih'

theorem Balanced.closes {commas : Bool} {ts : List Token} (h : Balanced commas ts) (b : Bracket) :
    Closes b ts :=
  (h.passes b).closes

/-! ## Segments -/

/-- The segments of tokens at the commas that stand in no scope. -/
def segments : Int → List Token → List (List Token)
  | _, [] => [[]]
  | depth, t :: rest =>
    if (listScopes.map (·.1)).contains t.kind then
      (segments (depth + 1) rest).modifyHead (t :: ·)
    else if (listScopes.map (·.2)).contains t.kind then
      (segments (depth - 1) rest).modifyHead (t :: ·)
    else if t.kind = .mark .comma && depth = 0 then [] :: segments depth rest
    else (segments depth rest).modifyHead (t :: ·)

/-- Cutting at the commas found gives the segments. -/
theorem cut_separatorsFrom (before current ts : List Token) (depth : Int) :
    cut (before ++ current ++ ts) before.length
      (separatorsFrom listScopes (.mark .comma) depth (before.length + current.length) ts)
      = (segments depth ts).modifyHead (current ++ ·) := by
  induction ts generalizing before current depth with
  | nil => simp [separatorsFrom, segments, cut]
  | cons t rest ih =>
    have hgo (d : Int) := ih before (current ++ [t]) d
    have hcut := ih (before ++ current ++ [t]) [] depth
    simp only [List.append_assoc, List.singleton_append, List.length_append, List.length_singleton,
      List.length_nil, Nat.add_zero, List.nil_append] at hgo hcut
    simp only [← Nat.add_assoc] at hgo hcut
    have hfun : (fun l => current ++ t :: l) = (current ++ ·) ∘ (t :: ·) := rfl
    unfold separatorsFrom segments
    split
    · rw [List.append_assoc, hgo, List.modifyHead_modifyHead, hfun]
    · split
      · rw [List.append_assoc, hgo, List.modifyHead_modifyHead, hfun]
      · split
        · have hpiece : ((before ++ current ++ t :: rest).take
              (before.length + current.length)).drop before.length = current := by
            rw [List.take_left' (by simp), List.drop_left]
          rw [cut, hpiece, List.append_assoc, hcut]
          cases segments depth rest <;> simp
        · rw [List.append_assoc, hgo, List.modifyHead_modifyHead, hfun]

/-- A token goes to the first segment of those behind it, or is a comma that ends a segment. -/
theorem segments_cons (depth : Int) (t : Token) (rest : List Token) :
    (∃ d, segments depth (t :: rest) = (segments d rest).modifyHead (t :: ·)) ∨
      (t = .mark .comma ∧ segments depth (t :: rest) = [] :: segments depth rest) := by
  by_cases ho : (listScopes.map (·.1)).contains t.kind = true
  · exact Or.inl ⟨depth + 1, by rw [segments, if_pos ho]⟩
  by_cases hc : (listScopes.map (·.2)).contains t.kind = true
  · exact Or.inl ⟨depth - 1, by rw [segments, if_neg ho, if_pos hc]⟩
  by_cases hm : (t.kind = .mark .comma && depth = 0) = true
  · have hkind := of_decide_eq_true (Bool.and_eq_true_iff.1 hm).1
    refine Or.inr ⟨(Token.kind_eq_mark_iff t _).1 hkind, ?_⟩
    rw [segments, if_neg ho, if_neg hc, if_pos hm]
  · exact Or.inl ⟨depth, by rw [segments, if_neg ho, if_neg hc, if_neg hm]⟩

theorem segments_ne_nil (depth : Int) (ts : List Token) : segments depth ts ≠ [] := by
  induction ts generalizing depth with
  | nil => simp [segments]
  | cons t rest ih =>
    rcases segments_cons depth t rest with ⟨d, h⟩ | ⟨-, h⟩
    · rw [h]
      simpa using ih d
    · simp [h]

/-- The segments, with commas between them, are the tokens. -/
theorem intercalate_segments (depth : Int) (ts : List Token) :
    List.intercalate [.mark .comma] (segments depth ts) = ts := by
  induction ts generalizing depth with
  | nil => simp [segments, List.intercalate]
  | cons t rest ih =>
    rcases segments_cons depth t rest with ⟨d, h⟩ | ⟨rfl, h⟩
    · have hrest := ih d
      obtain ⟨s, ss, hs⟩ := List.exists_cons_of_ne_nil (segments_ne_nil d rest)
      rw [hs] at hrest
      rw [h, hs, List.modifyHead_cons]
      cases ss <;> simpa [List.intercalate] using hrest
    · have hrest := ih depth
      obtain ⟨s, ss, hs⟩ := List.exists_cons_of_ne_nil (segments_ne_nil depth rest)
      rw [hs] at hrest
      rw [h, hs]
      simpa [List.intercalate] using hrest

theorem segments_comma (rest : List Token) :
    segments 0 (.mark .comma :: rest) = [] :: segments 0 rest := by
  simp [segments, listScopes, Token.kind]

/-- Looking for commas passes over balanced tokens: at any depth over those without commas outside
of their brackets, and inside of brackets over all of them. -/
theorem Balanced.segments_append {commas : Bool} {ts : List Token} (h : Balanced commas ts)
    {depth : Int} (hd : 0 ≤ depth) (hc : commas = true → 1 ≤ depth) (rest : List Token) :
    segments depth (ts ++ rest) = (segments depth rest).modifyHead (ts ++ ·) := by
  induction h generalizing depth rest with
  | nil =>
    obtain ⟨s, ss, hs⟩ := List.exists_cons_of_ne_nil (segments_ne_nil depth rest)
    simp [hs]
  | @token commas t ho hcl ht =>
    have hko (b : Bracket) := (not_congr (Token.kind_eq_mark_iff _ _)).2 (ho b)
    have hkc (b : Bracket) := (not_congr (Token.kind_eq_mark_iff _ _)).2 (hcl b)
    have h1 : ¬ (listScopes.map (·.1)).contains t.kind = true := by simp [listScopes, hko]
    have h2 : ¬ (listScopes.map (·.2)).contains t.kind = true := by simp [listScopes, hkc]
    have h3 : ¬ (t.kind = .mark .comma && decide (depth = 0)) = true := by
      cases commas with
      | true =>
        have := hc rfl
        simp
        omega
      | false => simp [Token.kind_eq_mark_iff, ht rfl]
    rw [List.singleton_append, segments, if_neg h1, if_neg h2, if_neg h3]
    rfl
  | append _ _ ih ih' =>
    rw [List.append_assoc, ih hd hc, ih' hd hc, List.modifyHead_modifyHead]
    congr 1
    funext l
    simp
  | @scope commas b ts hb _ ih =>
    have ho : (listScopes.map (·.1)).contains (Token.opening b).kind = true := by
      cases b <;> first | rfl | exact absurd rfl hb
    have hn : ¬ (listScopes.map (·.1)).contains (Token.closing b).kind = true := by
      cases b <;> simp [listScopes, Token.kind]
    have hcl : (listScopes.map (·.2)).contains (Token.closing b).kind = true := by
      cases b <;> first | rfl | exact absurd rfl hb
    rw [Token.enclose_append, segments, if_pos ho, ih (by omega) (by omega), segments, if_neg hn,
      if_pos hcl, Int.add_sub_cancel, List.modifyHead_modifyHead, List.modifyHead_modifyHead]
    congr 1
    funext l
    simp [Token.enclose]

/-- Balanced tokens without commas outside of their brackets are one segment. -/
theorem Balanced.segments_eq {ts : List Token} (h : Balanced false ts) : segments 0 ts = [ts] := by
  have := h.segments_append (Int.le_refl 0) (fun h => by cases h) []
  simpa [segments] using this

theorem Balanced.segments_comma {ts : List Token} (h : Balanced false ts) (rest : List Token) :
    segments 0 (ts ++ .mark .comma :: rest) = ts :: segments 0 rest := by
  rw [h.segments_append (Int.le_refl 0) (fun h => by cases h), Scope.segments_comma]
  simp

end ModelScript.Scope
