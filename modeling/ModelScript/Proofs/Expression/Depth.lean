import Mathlib.Algebra.Ring.Nat
import ModelScript.Proofs.Expression.Step
import ModelScript.Proofs.Reading.Location

/-!
# How deep expressions go

The reader goes one level deeper for every part of an expression, and each part weighs less than
the whole, where the weight counts the tokens and the characters in strings: what stands in an
interpolation weighs no more than its characters, and the string around it more than that.  So a
reader that may go as deep as the tokens weigh is never too deep (`finishes_read`).
-/

namespace ModelScript

open Token (enclose)

/-! ## Weights -/

/-- One, and in a string one more for each character. -/
def Token.weight : Token → Nat
  | .string raw => raw.length + 1
  | _ => 1

def Token.weights (ts : List Token) : Nat := (ts.map Token.weight).sum

namespace Token

@[simp] theorem weights_nil : weights [] = 0 := rfl

@[simp] theorem weights_cons (t : Token) (ts : List Token) :
    weights (t :: ts) = t.weight + weights ts := rfl

@[simp] theorem weights_append (ts us : List Token) :
    weights (ts ++ us) = weights ts + weights us := by
  unfold weights
  rw [List.map_append, List.sum_append]

theorem weight_pos (t : Token) : 0 < t.weight := by
  unfold weight
  split <;> omega

theorem weights_le_of_sublist {ts us : List Token} (h : ts.Sublist us) :
    weights ts ≤ weights us := by
  induction h with
  | slnil => exact Nat.le_refl _
  | cons t _ ih =>
    rw [weights_cons]
    omega
  | cons_cons t _ ih =>
    rw [weights_cons, weights_cons]
    omega

theorem weights_enclose (b : Bracket) (ts : List Token) :
    weights (enclose b ts) = weights ts + 2 := by
  simp [enclose, weight]
  omega

theorem weights_trimStart_le (ts : List Token) : weights (trimStart ts) ≤ weights ts :=
  weights_le_of_sublist (List.dropWhile_sublist _)

theorem weights_trimEnd_le (ts : List Token) : weights (trimEnd ts) ≤ weights ts :=
  weights_le_of_sublist (List.take_sublist _ _)

theorem weights_trim_le (ts : List Token) : weights (trim ts) ≤ weights ts :=
  Nat.le_trans (weights_trimEnd_le _) (weights_trimStart_le _)

end Token

theorem Scope.weights_segment_le {ts s : List Token} (h : s ∈ segments 0 ts) :
    Token.weights s ≤ Token.weights ts := by
  have hsum (ss : List (List Token)) (hs : s ∈ ss) :
      Token.weights s ≤ Token.weights (List.intercalate [.mark .comma] ss) := by
    induction ss with
    | nil => cases hs
    | cons x xs ih =>
      cases xs with
      | nil =>
        obtain rfl := List.mem_singleton.1 hs
        simp [List.intercalate]
      | cons y ys =>
        rcases List.mem_cons.1 hs with rfl | hs
        · simp [List.intercalate]
        · have := ih hs
          simp only [List.intercalate, List.intersperse_cons_cons, List.flatten_cons,
            Token.weights_append] at this ⊢
          omega
  have := hsum _ h
  rwa [intercalate_segments] at this

/-! ## The weight of a text -/

theorem LexicalClass.weight_le_of_token? {l : LexicalClass} {text : List Char} {t : Token}
    (hpos : 0 < text.length) (h : l.token? text = some t) : t.weight ≤ text.length := by
  have hlabel (s : String) : (labelToken s).weight = 1 := by
    unfold labelToken
    split
    · rfl
    · split <;> rfl
  cases l with
  | string =>
    cases h
    show (String.ofList text.tail.dropLast).length + 1 ≤ _
    rw [String.length_ofList, List.length_dropLast, List.length_tail]
    omega
  | label =>
    cases h
    rw [hlabel]
    exact hpos
  | blank => cases h
  | comment => cases h
  | _ =>
    cases h
    exact hpos

theorem Lexer.weights_le_of_scan {file : String} {place : Place} {skip : Nat} {cs : List Char}
    {ts : List Token} (h : scan file place skip cs = .ok ts) :
    Token.weights ts ≤ cs.length - skip := by
  induction cs generalizing place skip ts with
  | nil => cases skip <;> cases h <;> simp
  | cons c cs ih =>
    cases skip with
    | succ skip =>
      have := ih h
      rw [List.length_cons]
      omega
    | zero =>
      unfold scan at h
      split at h
      · cases h
      · next l n hf =>
        obtain ⟨-, -, hpos⟩ := LexicalClass.mem_of_first? hf
        cases hs : scan file (place.after c) (n - 1) cs with
        | error f =>
          rw [hs] at h
          cases h
        | ok more =>
          rw [hs] at h
          cases h
          have hmore := ih hs
          have htake : ((c :: cs).take n).length = min n (cs.length + 1) := by
            rw [List.length_take, List.length_cons]
          rw [Token.weights_append, List.length_cons]
          cases ht : l.token? ((c :: cs).take n) with
          | none =>
            simp only [Option.toList_none, Token.weights_nil]
            omega
          | some t =>
            have hle := LexicalClass.weight_le_of_token? (by omega) ht
            simp only [Option.toList_some, Token.weights_cons, Token.weights_nil]
            omega

/-! ## Finished readings -/

/-- The reading is not too deep. -/
def Reading.Finishes {α : Type} (x : Reading α) : Prop := x.outcome ≠ .error .tooDeep

namespace Reading.Finishes

variable {α β : Type}

theorem pure (a : α) : Finishes (Pure.pure a) := by
  intro h
  cases h

theorem fault (file : String) (line : Nat) (p : Problem) :
    Finishes (Reading.fault file line p : Reading α) := by
  intro h
  cases h

theorem bind {x : Reading α} {g : α → Reading β} (h : Finishes x)
    (hg : ∀ a, x.outcome = .ok a → Finishes (g a)) : Finishes (x >>= g) := by
  obtain ⟨events, outcome⟩ := x
  cases outcome with
  | error e =>
    intro he
    cases he
    exact h rfl
  | ok a => exact hg a rfl

theorem of_bind {x : Reading α} {g : α → Reading β} (h : Finishes (x >>= g)) : Finishes x := by
  obtain ⟨events, outcome⟩ := x
  rintro rfl
  exact h rfl

end Reading.Finishes

namespace Expr

open Reading (Finishes)

variable {file : String} {read : ExprReader} {w : Nat}

/-- The only thing that lexing an interpolation can be is wrong. -/
theorem finishes_tokens (file : String) (line : Nat) (cs : List Char) :
    Finishes (Reading.tokens file line cs) := by
  intro h
  unfold Reading.tokens at h
  split at h <;> cases h

section

variable (hr : ∀ (line : Nat) (ts : List Token), Token.weights ts < w → Finishes (read line ts))
include hr

theorem operation?_finishes (length line : Nat) {ts : List Token} (hw : Token.weights ts ≤ w) :
    Finishes (operation? read length line ts) := by
  unfold operation?
  cases hs : split? length ts with
  | none => exact .pure _
  | some s =>
    unfold split? at hs
    split at hs
    · next op t rest htrim =>
      cases hs
      have hparts : Token.weights (ts.take length) + Token.weights (ts.drop length)
          = Token.weights ts := by
        rw [← Token.weights_append, List.take_append_drop]
      have hright := Token.weights_trimStart_le (ts.drop length)
      rw [htrim, Token.weights_cons] at hright
      have hleft := Token.weights_trimEnd_le (ts.take length)
      have hop := Token.weight_pos (.operator op)
      dsimp only
      refine (hr _ _ (by omega)).bind fun p _ => ?_
      exact (hr _ _ (by omega)).bind fun q _ => .pure _
    · cases hs

theorem orOperation_finishes (length line : Nat) {ts : List Token} (hw : Token.weights ts ≤ w)
    {alone : Reading (Expr × Nat)} (ha : Finishes alone) :
    Finishes (orOperation file read length line ts alone) := by
  unfold orOperation
  refine (operation?_finishes hr length line hw).bind fun r _ => ?_
  cases r with
  | some p => exact .pure p
  | none =>
    refine Finishes.bind ?_ fun _ _ => ha
    unfold requireEnd
    split
    · exact .pure _
    · exact .fault _ _ _

theorem elements_finishes (line : Nat) {segments : List (List Token)}
    (hs : ∀ s ∈ segments, Token.weights s < w) : Finishes (elements read line segments) := by
  induction segments generalizing line with
  | nil => exact .pure _
  | cons s rest ih =>
    unfold elements
    refine (hr _ _ (hs s (by simp))).bind fun p _ => ?_
    exact (ih _ fun t ht => hs t (by simp [ht])).bind fun es _ => .pure _

theorem onlyElement_finishes (line : Nat) {ts : List Token} (hw : Token.weights ts < w) :
    Finishes (onlyElement read line ts) := by
  have h := hr line ts hw
  unfold onlyElement
  dsimp only
  intro he
  split at he
  · cases he
  · cases he
  · next stop _ ho =>
    cases he
    exact h ho

theorem readList_finishes (line : Nat) {b : Bracket} {before inner : List Token}
    (hb : ∀ a ∈ before, a ≠ .opening b) (hc : Scope.Closes b inner) (tail : List Token)
    (hw : Token.weights inner < w) :
    Finishes (readList file read (.mark (.opening b)) (.mark (.closing b)) line
      (before ++ enclose b inner ++ tail)) := by
  rw [readList_eq hb hc]
  split
  · exact .pure _
  · split
    · exact onlyElement_finishes hr _ hw
    · exact elements_finishes hr _ fun s hs => Nat.lt_of_le_of_lt (Scope.weights_segment_le hs) hw

theorem parts_finishes (line : Nat) {text : List Char} (hw : text.length < w) (start : Nat)
    (ranges : List Interpolation) : Finishes (parts file read line text start ranges) := by
  induction ranges generalizing start with
  | nil => exact .pure _
  | cons i rest ih =>
    rw [parts_cons]
    refine Finishes.bind ?_ fun e _ => (ih _).bind fun es _ => .pure _
    unfold interpolated
    split
    · exact .fault _ _ _
    · refine (finishes_tokens _ _ _).bind fun ts hts => ?_
      have hscan : tokenize file line ((text.take i.closing).drop (i.opening + 1)) = .ok ts :=
        ((Logged.yields_tokens _ _ _ _ _).1 ⟨hts, rfl⟩).2
      have hle := Lexer.weights_le_of_scan hscan
      rw [List.length_drop, List.length_take] at hle
      exact (hr _ _ (by omega)).bind fun p _ => .pure _

theorem readString_finishes (line : Nat) (raw : String) (hw : raw.length < w) :
    Finishes (readString file read line raw) := by
  unfold readString
  split
  · exact .pure _
  · rw [map_eq_pure_bind]
    exact (parts_finishes hr line (by rwa [String.length_toList]) 0 _).bind fun es _ => .pure _

/-! ## Constructs -/

theorem readGrouped_finishes (line : Nat) {rest : List Token}
    (hw : Token.weights (.opening .round :: rest) ≤ w) :
    Finishes (readGrouped file read line (.opening .round :: rest)) := by
  by_cases hc : ∃ inner tail, rest = inner ++ .closing .round :: tail ∧ Scope.Closes .round inner
  · obtain ⟨inner, tail, rfl, hc⟩ := hc
    rw [← Token.enclose_append] at hw ⊢
    rw [readGrouped_eq file read line hc]
    split
    · exact .fault _ _ _
    · refine orOperation_finishes hr _ _ hw ?_
      rw [Token.weights_append, Token.weights_enclose] at hw
      exact (hr _ _ (by omega)).bind fun p _ => .pure _
  · have hopen := bracketed_of_not_closed file line [] (by simp) hc
    rw [List.nil_append] at hopen
    unfold readGrouped
    rw [hopen]
    exact .fault _ _ _

theorem readListing_finishes (line : Nat) {b : Bracket} (build : List Expr → Expr)
    (before : List Token) {rest : List Token} (hb : ∀ a ∈ before, a ≠ .opening b)
    (hw : Token.weights (before ++ .opening b :: rest) ≤ w) :
    Finishes (readListing file read b build line (before ++ .opening b :: rest)) := by
  by_cases hc : ∃ inner tail, rest = inner ++ .closing b :: tail ∧ Scope.Closes b inner
  · obtain ⟨inner, tail, rfl, hc⟩ := hc
    rw [← Token.enclose_append, ← List.append_assoc] at hw ⊢
    rw [readListing_eq file read line build _ hb hc]
    refine orOperation_finishes hr _ _ hw ?_
    rw [Token.weights_append, Token.weights_append, Token.weights_enclose] at hw
    exact (readList_finishes hr line hb hc tail (by omega)).bind fun es _ => .pure _
  · unfold readListing
    rw [bracketed_of_not_closed file line before hb hc]
    exact .fault _ _ _

theorem readAccess_finishes (line : Nat) (name : String) {breaks rest : List Token}
    (hb : Token.Blank breaks)
    (hw : Token.weights (.ident name :: breaks ++ .opening .square :: rest) ≤ w) :
    Finishes
      (readAccess file read name line (.ident name :: breaks ++ .opening .square :: rest)) := by
  by_cases hc : ∃ inner tail, rest = inner ++ .closing .square :: tail ∧ Scope.Closes .square inner
  · obtain ⟨inner, tail, rfl, hc⟩ := hc
    rw [← Token.enclose_append, ← List.append_assoc] at hw ⊢
    rw [readAccess_eq file read line name hb hc]
    refine orOperation_finishes hr _ _ hw ?_
    rw [Token.weights_append, Token.weights_append, Token.weights_enclose] at hw
    have htrim := Token.weights_trim_le inner
    dsimp only
    split
    · exact .fault _ _ _
    · exact (hr _ _ (by omega)).bind fun p _ => .pure _
  · unfold readAccess
    rw [bracketed_of_not_closed file line _ (hb.ident_ne_opening name .square) hc]
    exact .fault _ _ _

theorem readPrefixed_finishes (line : Nat) (op : String) {t : Token} {rest : List Token}
    (hw : Token.weights (t :: rest) ≤ w) :
    Finishes (readPrefixed file read op line (t :: rest)) := by
  cases rest with
  | nil => exact .fault _ _ _
  | cons t' rest =>
    have hpos := Token.weight_pos t
    rw [Token.weights_cons] at hw
    exact (hr line (t' :: rest) (by omega)).bind fun p _ => .pure _

theorem readAtom_finishes (line : Nat) {t : Token} {kind : Atom} {text : String}
    (h : t.atom? = some (kind, text)) {rest : List Token} (hw : Token.weights (t :: rest) ≤ w) :
    Finishes (readAtom file read kind text line (t :: rest)) := by
  unfold readAtom
  refine (operation?_finishes hr 1 line hw).bind fun r _ => ?_
  cases r with
  | some p => exact .pure p
  | none =>
    cases rest with
    | cons t' rest => exact .fault _ _ _
    | nil =>
      dsimp only
      split
      · obtain rfl := Token.eq_string_of_atom? h
        rw [Token.weights_cons] at hw
        have hlt : text.length < w := by
          have : (Token.string text).weight = text.length + 1 := rfl
          omega
        exact (readString_finishes hr line text hlt).bind fun e _ => .pure _
      · exact .pure _

theorem readConstruct_finishes (line : Nat) {ts : List Token} {c : Construct}
    (h : Construct.Leads ts c) (hw : Token.weights ts ≤ w) :
    Finishes (readConstruct file read line ts c) := by
  cases h with
  | parentheses rest => exact readGrouped_finishes hr line hw
  | prefixed rest h => exact readPrefixed_finishes hr line _ hw
  | list rest => exact readListing_finishes hr line _ [] (by simp) hw
  | call name rest h => exact readListing_finishes hr line _ _ (h.ident_ne_opening name .round) hw
  | access name rest h => exact readAccess_finishes hr line name h hw
  | atom rest h => exact readAtom_finishes hr line h hw

end

/-! ## Levels -/

/-- A reader that may go deeper than the tokens weigh is not too deep. -/
theorem finishes_read (file : String) {depth : Nat} (line : Nat) {ts : List Token}
    (hw : Token.weights ts < depth) : Finishes (Expr.read file depth line ts) := by
  induction depth generalizing line ts with
  | zero => omega
  | succ depth ih =>
    obtain ⟨_, _, -, -, -, ht⟩ := Token.exists_eq_trim ts
    have htrim := Token.weights_trim_le ts
    show Finishes (readStep file _ line ts)
    rw [readStep_trim]
    cases hc : Construct.of? (Token.trim ts) with
    | none =>
      unfold readStep
      dsimp only
      rw [ht.trimStart_eq, ht.trimEnd_eq, hc]
      exact .fault _ _ _
    | some c =>
      rw [readStep_of_trimmed ht hc]
      exact readConstruct_finishes (w := depth) (fun line ts h => ih line h) _
        (Construct.leads_of_of? ht hc) (by omega)

end Expr

end ModelScript
