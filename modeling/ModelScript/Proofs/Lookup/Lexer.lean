import ModelScript.Proofs.Lookup.Basic

/-!
# Lexing by look-ups

The lexer as a loop over a character stream, whose characters are taken by a count and whose
keywords are looked up in a table.  No class takes more characters than are left
(`LexicalClass.length_le`), so nothing misses, and the tokens are those of `tokenize`
(`tokenize_eq`).
-/

namespace ModelScript

namespace LexicalClass

theorem spelled_le (spelling : List Char) (stop : Char → Bool) (cs : List Char) :
    spelled spelling stop cs ≤ cs.length := by
  unfold spelled
  split
  · next h =>
    have hprefix := List.isPrefixOf_iff_prefix.1 (Bool.and_eq_true_iff.1 h).1
    exact hprefix.length_le
  · omega

theorem stringTail?_le {cs : List Char} {n : Nat} (h : stringTail? cs = some n) :
    n ≤ cs.length := by
  fun_induction stringTail? cs generalizing n with
  | case1 => cases h
  | case2 rest =>
    cases h
    simp
  | case3 => cases h
  | case4 => cases h
  | case5 => cases h
  | case6 c rest hc ih =>
    obtain ⟨m, hm, rfl⟩ := Option.map_eq_some_iff.1 h
    have := ih hm
    simp only [List.length_cons]
    omega
  | case7 c rest hq hn hb1 hb2 hb3 ih =>
    obtain ⟨m, hm, rfl⟩ := Option.map_eq_some_iff.1 h
    have := ih hm
    simp only [List.length_cons]
    omega

theorem digitCount_le (cs : List Char) : digitCount cs ≤ cs.length :=
  (List.takeWhile_sublist _).length_le

theorem length_le (l : LexicalClass) (cs : List Char) : l.length cs ≤ cs.length := by
  have htake (p : Char → Bool) (cs : List Char) : (cs.takeWhile p).length ≤ cs.length :=
    (List.takeWhile_sublist _).length_le
  fun_cases length l cs with
  | case1 => exact htake _ _
  | case2 rest =>
    have := htake (fun c => decide (c ≠ '\n')) rest
    rw [List.length_cons]
    omega
  | case3 => simp
  | case4 => exact spelled_le _ _ _
  | case5 => exact spelled_le _ _ _
  | case6 c rest _ =>
    have := htake continuesLabel rest
    rw [List.length_cons]
    omega
  | case8 rest =>
    rw [List.length_cons]
    cases hs : stringTail? rest with
    | none => exact Nat.zero_le _
    | some n =>
      have := stringTail?_le hs
      show n + 1 ≤ _
      omega
  | case10 _ whole rest hrest _ =>
    have hlen := congrArg List.length hrest
    rw [List.length_drop, List.length_cons] at hlen
    have := digitCount_le rest
    omega
  | case12 => exact digitCount_le cs
  | case13 => simp
  | _ => exact Nat.zero_le _

end LexicalClass

/-- The tokens after some characters are those of the rest, read from the place behind them. -/
theorem Lexer.scan_skip (file : String) (place : Place) (skip : Nat) (cs : List Char) :
    scan file place skip cs = scan file (place.past (cs.take skip)) 0 (cs.drop skip) := by
  induction cs generalizing place skip with
  | nil => cases skip <;> simp [scan]
  | cons c cs ih =>
    cases skip with
    | zero => rfl
    | succ skip => exact ih (place.after c) skip

/-- Lexing goes on behind the text of the first class that fits. -/
theorem Lexer.scan_cons (file : String) (place : Place) {c : Char} {cs : List Char}
    {l : LexicalClass} {n : Nat} (h : LexicalClass.first? (c :: cs) = some (l, n)) :
    scan file place 0 (c :: cs) = do
      let tokens ← scan file (place.past ((c :: cs).take n)) 0 ((c :: cs).drop n)
      return (l.token? ((c :: cs).take n)).toList ++ tokens := by
  obtain ⟨-, -, hpos⟩ := LexicalClass.mem_of_first? h
  obtain ⟨m, rfl⟩ : ∃ m, n = m + 1 := ⟨n - 1, by omega⟩
  conv => lhs; unfold scan
  rw [h]
  dsimp only
  rw [Nat.add_sub_cancel, scan_skip]
  rfl

namespace Lookup

open Looking (item entry item_eq entry_eq)

/-! ## Tokens -/

def keywords : List (String × Keyword) := Keyword.all.map fun k => (k.word, k)

/-- The token for a text of a class; blanks and comments stand for none. -/
def makeToken : LexicalClass → List Char → Looking (Option Token)
  | .label, text => do
    let word := String.ofList text
    if (keywords.map (·.1)).contains word then
      return some (.keyword (← entry keywords word))
    else if booleanWords.contains word then return some (.boolean word)
    else return some (.ident word)
  | l, text => return l.token? text

def takeChars (s : Stream) (count : Nat) : Looking (List Char × Stream) :=
  match s.advance count with
  | .ok taken => return taken
  | .error _ => .fail (.miss .index)

/-- The tokens that are left in a stream, lexed in less rounds than the fuel. -/
def lex (file : String) : Nat → Stream → Looking (List Token)
  | 0, _ => .fail (.miss .round)
  | fuel + 1, s => do
    if s.atEnd then return []
    match LexicalClass.first? s.rest with
    | none =>
      let c ← item s.source s.place.position
      Looking.fault file s.place.line (.unrecognized c s.place.column)
    | some (l, n) =>
      let (text, s) ← takeChars s n
      let token ← makeToken l text
      let tokens ← lex file fuel s
      return token.toList ++ tokens

/-- Reads a text whose first line has the number `line` as tokens, noting how many there are. -/
def tokenize (file : String) (line : Nat) (source : List Char) : Looking (List Token) := do
  let tokens ← lex file (source.length + 1) ⟨source, 0, line, 1⟩
  Logged.note (.tokenized file tokens.length)
  return tokens

theorem lookup_keywords (word : String) : keywords.lookup word = Keyword.ofWord? word := by
  unfold keywords Keyword.ofWord?
  generalize Keyword.all = ks
  induction ks with
  | nil => rfl
  | cons k ks ih =>
    rw [List.map_cons, List.lookup_cons, List.find?_cons, ih, BEq.comm]

theorem makeToken_eq (l : LexicalClass) (text : List Char) :
    makeToken l text = pure (l.token? text) := by
  cases l with
  | label =>
    unfold makeToken LexicalClass.token? LexicalClass.labelToken
    have hlookup := lookup_keywords (String.ofList text)
    dsimp only
    cases hk : Keyword.ofWord? (String.ofList text) with
    | none =>
      rw [hk, List.lookup_eq_none_iff] at hlookup
      have hnot : ¬ (keywords.map (·.1)).contains (String.ofList text) = true := by
        rw [List.contains_iff_mem, List.mem_map]
        rintro ⟨p, hp, he⟩
        simpa [he] using hlookup p hp
      rw [if_neg hnot]
      split
      · rfl
      · rfl
    | some k =>
      rw [hk] at hlookup
      have hin : (keywords.map (·.1)).contains (String.ofList text) = true := by
        obtain ⟨l₁, l₂, he, -⟩ := List.lookup_eq_some_iff.1 hlookup
        rw [List.contains_iff_mem, he]
        simp
      rw [if_pos hin, entry_eq hlookup]
      rfl
  | _ => rfl

theorem takeChars_eq {s : Stream} {n : Nat} (h : n ≤ s.rest.length)
    (hp : s.place.position ≤ s.source.length) :
    takeChars s n = pure (s.rest.take n, { s with place := s.place.past (s.rest.take n) }) := by
  have hlen : s.rest.length = s.source.length - s.place.position := List.length_drop
  unfold takeChars Stream.advance
  rw [if_neg (by omega)]

/-- The outcome of a computation without events. -/
def ofExcept {α : Type} : Except Fault α → Looking α
  | .ok a => return a
  | .error f => .fail (.stop (.fault f))

theorem lex_eq (file : String) {fuel : Nat} {s : Stream} (hf : s.rest.length < fuel)
    (hp : s.place.position ≤ s.source.length) :
    lex file fuel s = ofExcept (Lexer.scan file s.place 0 s.rest) := by
  induction fuel generalizing s with
  | zero => exact absurd hf (Nat.not_lt_zero _)
  | succ fuel ih =>
    have hlen : s.rest.length = s.source.length - s.place.position := List.length_drop
    unfold lex
    cases hrest : s.rest with
    | nil =>
      rw [hrest, List.length_nil] at hlen
      have hend : s.atEnd = true := by
        unfold Stream.atEnd
        exact decide_eq_true (by omega)
      rw [hend]
      rfl
    | cons c cs =>
      have hlt : s.place.position < s.source.length := by
        rw [hrest, List.length_cons] at hlen
        omega
      have hend : s.atEnd = false := by
        unfold Stream.atEnd
        exact decide_eq_false (by omega)
      rw [hend]
      cases hc : LexicalClass.first? (c :: cs) with
      | none =>
        have hitem : s.source[s.place.position]? = some c := by
          have := congrArg List.head? hrest
          rwa [Stream.rest, List.head?_drop] at this
        rw [item_eq hitem]
        simp [Lexer.scan, hc]
        rfl
      | some p =>
        obtain ⟨l, n⟩ := p
        obtain ⟨-, hn, hpos⟩ := LexicalClass.mem_of_first? hc
        have hle : n ≤ s.rest.length := by
          rw [hrest, ← hn]
          exact LexicalClass.length_le l _
        have hposition : (s.place.past (s.rest.take n)).position = s.place.position + n := by
          rw [Place.position_past, List.length_take, Nat.min_eq_left hle]
        have hnext : (Stream.rest { s with place := s.place.past (s.rest.take n) })
            = s.rest.drop n := by
          unfold Stream.rest at hposition ⊢
          rw [hposition, List.drop_drop]
        have hinside : (s.place.past (s.rest.take n)).position ≤ s.source.length := by omega
        have hloop := @ih { s with place := s.place.past (s.rest.take n) }
          (by rw [hnext, List.length_drop]; omega) hinside
        rw [Lexer.scan_cons file s.place hc, ← hrest]
        simp only [Bool.false_eq_true, if_false, takeChars_eq hle hp, makeToken_eq, pure_bind]
        rw [hloop, hnext]
        cases Lexer.scan file (s.place.past (s.rest.take n)) 0 (s.rest.drop n) with
        | error f => rfl
        | ok tokens => rfl

theorem tokenize_eq (file : String) (line : Nat) (source : List Char) :
    tokenize file line source = Looking.of (Reading.tokens file line source) := by
  unfold tokenize Reading.tokens
  rw [lex_eq file (by simp [Stream.rest]) (Nat.zero_le _)]
  have hscan : ModelScript.tokenize file line source = Lexer.scan file ⟨0, line, 1⟩ 0 source := rfl
  rw [hscan]
  show (ofExcept (Lexer.scan file ⟨0, line, 1⟩ 0 source) >>= _) = _
  cases Lexer.scan file ⟨0, line, 1⟩ 0 source with
  | error f => rfl
  | ok tokens => rfl

end Lookup

end ModelScript
