import ModelScript.Token.Basic

/-!
# Scopes in token lists

Finding brackets that belong together.  `Scope.close?` counts the depth of one kind of bracket from
just after an opening one and finds where it falls back to zero; `Scope.range?` looks for the first
opening token and its close.  `Scope.separators?` finds the separators that stand in no scope, with
one depth for all kinds of scope together.  Line breaks are counted and trimmed here too, since both
parsers number lines by the line breaks they pass.
-/

namespace ModelScript

namespace Token

def newlines (tokens : List Token) : Nat := tokens.countP isNewline

/-- The number of line breaks before the first other token. -/
def leadingNewlines (tokens : List Token) : Nat := (tokens.takeWhile isNewline).length

/-- The number of line breaks after the last other token. -/
def trailingNewlines (tokens : List Token) : Nat := leadingNewlines tokens.reverse

def trimStart (tokens : List Token) : List Token := tokens.dropWhile isNewline

def trimEnd (tokens : List Token) : List Token :=
  tokens.take (tokens.length - trailingNewlines tokens)

/-- The first token that is no line break. -/
def significant? (tokens : List Token) : Option Token := tokens.find? (!·.isNewline)

/-- Whether the tokens of other kinds than `skipping` begin with tokens of the given kinds. -/
def beginWith (kinds : List Kind) (skipping : Kind) (tokens : List Token) : Bool :=
  kinds.isPrefixOf ((tokens.map kind).filter (· ≠ skipping))

theorem newlines_append (as bs : List Token) :
    newlines (as ++ bs) = newlines as + newlines bs := List.countP_append

theorem newlines_eq (tokens : List Token) :
    newlines tokens = leadingNewlines tokens + newlines (trimStart tokens) := by
  induction tokens with
  | nil => rfl
  | cons t rest ih =>
    unfold newlines leadingNewlines trimStart at *
    cases h : t.isNewline with
    | true =>
      rw [List.countP_cons_of_pos h, List.takeWhile_cons_of_pos h, List.dropWhile_cons_of_pos h, ih,
        List.length_cons]
      omega
    | false =>
      have h' : ¬ t.isNewline = true := by rw [h]; exact Bool.false_ne_true
      rw [List.takeWhile_cons_of_neg h', List.dropWhile_cons_of_neg h', List.length_nil,
        Nat.zero_add]

theorem drop_leadingNewlines (tokens : List Token) :
    tokens.drop (leadingNewlines tokens) = trimStart tokens := by
  unfold leadingNewlines trimStart
  induction tokens with
  | nil => rfl
  | cons t rest ih =>
    cases h : t.isNewline with
    | true =>
      rw [List.takeWhile_cons_of_pos h, List.dropWhile_cons_of_pos h, List.length_cons,
        List.drop_succ_cons, ih]
    | false =>
      have h' : ¬ t.isNewline = true := by rw [h]; exact Bool.false_ne_true
      rw [List.takeWhile_cons_of_neg h', List.dropWhile_cons_of_neg h', List.length_nil,
        List.drop_zero]

theorem newlines_take_leadingNewlines (tokens : List Token) :
    newlines (tokens.take (leadingNewlines tokens)) = leadingNewlines tokens := by
  have h := newlines_append (tokens.take (leadingNewlines tokens))
    (tokens.drop (leadingNewlines tokens))
  rw [List.take_append_drop, drop_leadingNewlines, newlines_eq] at h
  omega

theorem length_trimStart (tokens : List Token) :
    leadingNewlines tokens + (trimStart tokens).length = tokens.length := by
  unfold leadingNewlines trimStart
  rw [← List.length_append, List.takeWhile_append_dropWhile]

end Token

namespace Scope

/-- The index of the first token, from `start` on, of one of the given kinds. -/
def firstOf? (kinds : List Kind) (tokens : List Token) (start : Nat) : Option Nat :=
  (· + start) <$> (tokens.drop start).findIdx? fun t => kinds.contains t.kind

/-- The index of the first token, from `start` on, that is not of the given kind. -/
def firstNot? (kind : Kind) (tokens : List Token) (start : Nat) : Option Nat :=
  (· + start) <$> (tokens.drop start).findIdx? fun t => t.kind ≠ kind

/-- The index of the token that brings the depth to zero, reading on at a depth of at least one. -/
def close? (opening closing : Kind) : Nat → List Token → Option Nat
  | _, [] => none
  | depth, t :: rest =>
    if t.kind = opening then (· + 1) <$> close? opening closing (depth + 1) rest
    else if t.kind = closing then
      if depth ≤ 1 then some 0 else (· + 1) <$> close? opening closing (depth - 1) rest
    else (· + 1) <$> close? opening closing depth rest

/-- The indices of the first opening token, from `start` on, and of the token that closes it. -/
def range? (opening closing : Kind) (tokens : List Token) (start : Nat) : Option (Nat × Nat) := do
  let first ← firstOf? [opening] tokens start
  let length ← close? opening closing 1 (tokens.drop (first + 1))
  return (first, first + 1 + length)

/-- Parentheses and square brackets, the scopes in which a comma separates nothing outside. -/
def listScopes : List (Kind × Kind) :=
  [(.mark (.opening .round), .mark (.closing .round)),
    (.mark (.opening .square), .mark (.closing .square))]

/-- The indices, counted from `index` on, of the separators at depth zero. -/
def separatorsFrom (scopes : List (Kind × Kind)) (separator : Kind) :
    Int → Nat → List Token → List Nat
  | _, _, [] => []
  | depth, index, t :: rest =>
    if (scopes.map (·.1)).contains t.kind then
      separatorsFrom scopes separator (depth + 1) (index + 1) rest
    else if (scopes.map (·.2)).contains t.kind then
      separatorsFrom scopes separator (depth - 1) (index + 1) rest
    else if t.kind = separator && depth = 0 then
      index :: separatorsFrom scopes separator depth (index + 1) rest
    else separatorsFrom scopes separator depth (index + 1) rest

/-- The indices between `start` and `stop` of the separators that stand in no scope.  There are
none to give if the range reaches beyond the tokens. -/
def separators? (scopes : List (Kind × Kind)) (separator : Kind) (tokens : List Token)
    (start stop : Nat) : Option (List Nat) :=
  if start < stop && tokens.length < stop then none
  else some (separatorsFrom scopes separator 0 start ((tokens.take stop).drop start))

/-- The pieces of a list between the given ascending indices, starting at `start`. -/
def cut {α : Type} (items : List α) (start : Nat) : List Nat → List (List α)
  | [] => [items.drop start]
  | i :: rest => (items.take i).drop start :: cut items (i + 1) rest

/-! ## Lemmas -/

theorem close?_lt {opening closing : Kind} {depth n : Nat} {tokens : List Token}
    (h : close? opening closing depth tokens = some n) : n < tokens.length := by
  induction tokens generalizing depth n with
  | nil => cases h
  | cons t rest ih =>
    rw [List.length_cons]
    unfold close? at h
    split at h
    · obtain ⟨m, hm, rfl⟩ := Option.map_eq_some_iff.1 h
      have := ih hm
      omega
    · split at h
      · split at h
        · cases h
          omega
        · obtain ⟨m, hm, rfl⟩ := Option.map_eq_some_iff.1 h
          have := ih hm
          omega
      · obtain ⟨m, hm, rfl⟩ := Option.map_eq_some_iff.1 h
        have := ih hm
        omega

theorem length_cut {α : Type} (items : List α) (start : Nat) (indices : List Nat) :
    (cut items start indices).length = indices.length + 1 := by
  induction indices generalizing start with
  | nil => rfl
  | cons i rest ih => rw [cut, List.length_cons, ih, List.length_cons]

end Scope

end ModelScript
