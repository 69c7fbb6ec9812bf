import ModelScript.Token.Stream

/-!
# Advancing a stream

A stream is advanced by a number of characters or not at all.  `Stream.consume` does it step by
step on a stream that changes on the way: it looks whether enough characters are left, moves the
line and the column past one character after the other, and moves the position last.  It ends where
`Stream.advance` does, and where `advance` fails the stream is still the one it was (`consume_eq`).

How far the place moves depends on the text alone (`Place.past_append`), so a text can be read in
one piece or in two, wherever it is cut:

    s.advance (n + m) = .ok (text, s')
      ↔ s.advance n = .ok (front, middle), middle.advance m = .ok (back, s'),
        text = front ++ back                                              (advance_add)
-/

namespace ModelScript.Stream

/-! ## Step by step -/

/-- The place when a character has moved its line and its column, but not its position. -/
def turned (p : Place) (c : Char) : Place :=
  if c = '\n' then { p with line := p.line + 1, column := 1 }
  else { p with column := p.column + 1 }

/-- Moves the line and the column past a character. -/
def turn (c : Char) : EStateM Overrun Stream Unit :=
  modify fun s => { s with place := turned s.place c }

/-- Reads `count` characters from a stream that changes. -/
def consume (count : Nat) : EStateM Overrun Stream (List Char) := do
  let s ← get
  if s.source.length < s.place.position + count then throw ⟨s.place⟩
  let text := s.rest.take count
  text.forM turn
  modify fun s => { s with place.position := s.place.position + count }
  return text

theorem turned_eq (p : Place) (c : Char) :
    turned p c = { p.after c with position := p.position } := by
  unfold turned Place.after
  split
  · rfl
  · rfl

/-- The line and the column behind a text do not depend on the position in front of it. -/
theorem past_of_position (p : Place) (i : Nat) (text : List Char) :
    ({ p with position := i } : Place).past text
      = { p.past text with position := i + text.length } := by
  induction text generalizing p i with
  | nil => rfl
  | cons c rest ih =>
    have hafter : ({ p with position := i } : Place).after c
        = { p.after c with position := i + 1 } := by
      unfold Place.after
      split
      · rfl
      · rfl
    show Place.past (Place.after { p with position := i } c) rest = _
    rw [hafter, ih, List.length_cons, Nat.add_right_comm, Nat.add_assoc]
    rfl

/-- Character by character, the line and the column come to where they are behind the text. -/
theorem forM_turn (text : List Char) (s : Stream) :
    (text.forM turn).run s
      = .ok () { s with place := { s.place.past text with position := s.place.position } } := by
  induction text generalizing s with
  | nil => rfl
  | cons c rest ih =>
    show (rest.forM turn).run { s with place := turned s.place c } = _
    rw [ih, turned_eq, past_of_position]
    rfl

theorem length_take_rest {s : Stream} {count : Nat}
    (h : s.place.position + count ≤ s.source.length) : (s.rest.take count).length = count := by
  rw [rest, List.length_take, List.length_drop]
  omega

/-- Reading step by step gives the text and the stream that `advance` gives, and where `advance`
fails it leaves the stream as it is. -/
theorem consume_eq (count : Nat) (s : Stream) :
    (consume count).run s = match s.advance count with
      | .ok (text, s') => .ok text s'
      | .error o => .error o s := by
  unfold consume advance
  rw [EStateM.run_bind, EStateM.run_get]
  dsimp only
  by_cases h : s.source.length < s.place.position + count
  · rw [if_pos h, if_pos h]
    rfl
  · have hposition := s.place.position_past (s.rest.take count)
    rw [length_take_rest (Nat.not_lt.mp h)] at hposition
    rw [if_neg h, if_neg h, EStateM.run_bind, forM_turn]
    show EStateM.Result.ok _ (⟨s.source, _, _, _⟩ : Stream) = .ok _ _
    rw [← hposition]

/-! ## In one piece or in two -/

theorem advance_eq_ok_iff {s s' : Stream} {count : Nat} {text : List Char} :
    s.advance count = .ok (text, s') ↔
      s.place.position + count ≤ s.source.length ∧ text = s.rest.take count ∧
        s' = { s with place := s.place.past text } := by
  unfold advance
  by_cases h : s.source.length < s.place.position + count
  · rw [if_pos h]
    constructor
    · intro hok
      cases hok
    · rintro ⟨hle, -, -⟩
      omega
  · rw [if_neg h]
    constructor
    · intro hok
      cases hok
      exact ⟨Nat.not_lt.mp h, rfl, rfl⟩
    · rintro ⟨-, rfl, rfl⟩
      rfl

theorem rest_past {s : Stream} {count : Nat} (h : s.place.position + count ≤ s.source.length) :
    rest { s with place := s.place.past (s.rest.take count) } = s.rest.drop count := by
  show s.source.drop (s.place.past (s.rest.take count)).position = _
  rw [Place.position_past, length_take_rest h, rest, List.drop_drop]

/-- Reading `n + m` characters succeeds exactly if reading `n` and then `m` does, and it gives the
two texts in a row and the same place behind them.  Step by step reading does what `advance` does,
and whenever it fails the position, the line and the column are those from before. -/
theorem advance_add (s : Stream) (n m : Nat) :
    (∀ text s', s.advance (n + m) = .ok (text, s') ↔
        ∃ front middle back, s.advance n = .ok (front, middle) ∧
          middle.advance m = .ok (back, s') ∧ text = front ++ back) ∧
      (∀ count, (consume count).run s = match s.advance count with
        | .ok (text, s') => .ok text s'
        | .error o => .error o s) ∧
      ∀ count o s', (consume count).run s = .error o s' → s'.place = s.place := by
  refine ⟨fun text s' => ?_, fun count => consume_eq count s, fun count o s' h => ?_⟩
  · simp only [advance_eq_ok_iff]
    constructor
    · rintro ⟨hle, rfl, rfl⟩
      have hn : s.place.position + n ≤ s.source.length := by omega
      refine ⟨_, _, _, ⟨hn, rfl, rfl⟩, ⟨?_, rfl, ?_⟩, ?_⟩
      · dsimp only
        rw [Place.position_past, length_take_rest hn]
        omega
      · rw [rest_past hn, ← Place.past_append, ← List.take_add]
      · rw [rest_past hn, ← List.take_add]
    · rintro ⟨front, middle, back, ⟨hn, rfl, rfl⟩, ⟨hm, rfl, rfl⟩, rfl⟩
      dsimp only at hm
      rw [Place.position_past, length_take_rest hn] at hm
      rw [rest_past hn, ← Place.past_append, ← List.take_add]
      exact ⟨by omega, rfl, rfl⟩
  · rw [consume_eq] at h
    split at h
    · cases h
    · cases h
      rfl

/-- A text of three characters, read in one piece and behind its line break, and one character too
many. -/
theorem advance_add_newline :
    let s : Stream := ⟨"a\nb".toList, ⟨0, 1, 1⟩⟩
    let s' : Stream := { s with place := ⟨3, 2, 2⟩ }
    s.advance (2 + 1) = .ok (s.source, s') ∧
      (∃ front middle back, s.advance 2 = .ok (front, middle) ∧
        middle.advance 1 = .ok (back, s') ∧ s.source = front ++ back) ∧
      (consume 4).run s = .error ⟨s.place⟩ s := by
  intro s s'
  have hwhole : s.advance (2 + 1) = .ok (s.source, s') := rfl
  obtain ⟨hpieces, hsteps, -⟩ := advance_add s 2 1
  exact ⟨hwhole, (hpieces _ _).1 hwhole, hsteps 4⟩

end ModelScript.Stream
