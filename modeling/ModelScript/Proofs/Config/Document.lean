import ModelScript.Config.Document

/-!
# How a document is read

Every part of the reader of documents takes its part off the front of the text and leaves the rest
(`Scans`).  So whatever it meets stands in the text as a whole; in particular a document is refused
for the digits of a number only if its text has that many digits in a row
(`overlong_of_ofText`).
-/

namespace ModelScript.Document

/-- A text has `n` digits in a row, more than are read as a number. -/
structure Overlong (n : Nat) (cs : List Char) : Prop where
  limit : Text.digitLimit < n
  run : ∃ digits, digits <:+: cs ∧ digits.length = n ∧ ∀ c ∈ digits, c.isDigit = true

/-- What may come of reading the front of a text: a rest of it, or too many digits if it has
them. -/
structure Scans {α : Type} (cs : List Char) (x : Reads (α × List Char)) : Prop where
  suffix : ∀ {a rest}, x = .ok (a, rest) → rest <:+ cs
  overlong : ∀ {n}, x = .error (.tooManyDigits n) → Overlong n cs

namespace Scans

variable {α β : Type} {cs cs' : List Char}

theorem ok {a : α} {rest : List Char} (h : rest <:+ cs) : Scans cs (.ok (a, rest)) where
  suffix := by
    rintro _ _ ⟨⟩
    exact h
  overlong := nofun

theorem malformed : Scans (α := α) cs (.error .malformed) where
  suffix := nofun
  overlong := nofun

theorem mono {x : Reads (α × List Char)} (h : cs <:+ cs') (hx : Scans cs x) : Scans cs' x where
  suffix hok := (hx.suffix hok).trans h
  overlong herror :=
    have ⟨hlimit, digits, hdigits, hlength, hall⟩ := hx.overlong herror
    ⟨hlimit, digits, hdigits.trans h.isInfix, hlength, hall⟩

theorem bind {x : Reads (α × List Char)} {f : α × List Char → Reads (β × List Char)}
    (hx : Scans cs x) (hf : ∀ a rest, Scans rest (f (a, rest))) : Scans cs (x >>= f) := by
  match x with
  | .ok (a, rest) => exact (hf a rest).mono (hx.suffix rfl)
  | .error e =>
    refine ⟨nofun, fun herror => hx.overlong ?_⟩
    cases herror
    rfl

end Scans

/-! ## Strings and numbers -/

variable {cs : List Char}

theorem skipBlanks_suffix (cs : List Char) : skipBlanks cs <:+ cs := List.dropWhile_suffix _

/-- What stands behind blanks and one character is a rest of the text. -/
theorem suffix_of_skipBlanks {c : Char} {rest : List Char} (h : skipBlanks cs = c :: rest) :
    rest <:+ cs :=
  (List.suffix_cons c rest).trans (h ▸ skipBlanks_suffix cs)

theorem scans_before {x : Reads (Option (List Char) × List Char)} (half : Option Nat) (c : Char)
    (h : Scans cs x) : Scans cs (before half c x) :=
  h.bind fun _ rest => .ok (List.suffix_refl rest)

theorem scans_spoiled {x : Reads (Option (List Char) × List Char)} (h : Scans cs x) :
    Scans cs (spoiled x) :=
  h.bind fun _ rest => .ok (List.suffix_refl rest)

theorem scans_stringTail (half : Option Nat) (cs : List Char) : Scans cs (stringTail half cs) := by
  have escape (a b c d e f : Char) (rest : List Char) :
      rest <:+ a :: b :: c :: d :: e :: f :: rest :=
    ⟨[a, b, c, d, e, f], rfl⟩
  fun_induction stringTail half cs with
  | case1 => exact .malformed
  | case2 half rest => exact .ok (List.suffix_cons _ rest)
  | case3 => exact .malformed
  | case4 half a b c d rest unit hunit hhigh hhalf ih => exact scans_spoiled (ih.mono (escape ..))
  | case5 half a b c d rest unit hunit hhigh hhalf ih => exact ih.mono (escape ..)
  | case6 a b c d rest unit hunit hhigh hlow high ih => exact scans_before _ _ (ih.mono (escape ..))
  | case7 a b c d rest unit hunit hhigh hlow ih => exact scans_spoiled (ih.mono (escape ..))
  | case8 half a b c d rest unit hunit hhigh hlow ih => exact scans_before _ _ (ih.mono (escape ..))
  | case9 => exact .malformed
  | case10 half c rest hc escaped hescape ih => exact scans_before _ _ (ih.mono ⟨['\\', c], rfl⟩)
  | case11 => exact .malformed
  | case12 half c rest hquote hunit hescape hc ih =>
    exact scans_before _ _ (ih.mono (List.suffix_cons c rest))

theorem skipFraction?_suffix {rest : List Char} (h : skipFraction? cs = some rest) :
    rest <:+ cs := by
  unfold skipFraction? at h
  split at h
  · next digits =>
    split at h
    · cases h
    · rw [← Option.some.inj h]
      exact (List.dropWhile_suffix _).trans (List.suffix_cons _ digits)
  · cases h

theorem skipExponent?_suffix {rest : List Char} (h : skipExponent? cs = some rest) :
    rest <:+ cs := by
  unfold skipExponent? at h
  split at h
  · next e behind =>
    extract_lets digits at h
    have hdigits : digits <:+ behind := by
      unfold digits
      split
      · exact List.suffix_cons ..
      · exact List.suffix_cons ..
      · exact List.suffix_refl _
    clear_value digits
    split at h
    · split at h
      · cases h
      · rw [← Option.some.inj h]
        exact (List.dropWhile_suffix _).trans (hdigits.trans (List.suffix_cons e behind))
    · cases h
  · cases h

theorem scans_unsigned (cs : List Char) : Scans cs (unsigned cs) := by
  unfold unsigned
  extract_lets whole rest
  have hwhole : whole <+: digitsOf cs := by
    unfold whole
    split
    · next digits hdigits => exact ⟨digits, hdigits.symm⟩
    · exact List.prefix_refl _
  have hrest : rest <:+ cs := List.drop_suffix _ cs
  -- from here on it matters only that these are digits in front and what follows them
  clear_value rest whole
  split
  · exact .malformed
  split
  · split
    · next hlong =>
      refine ⟨nofun, ?_⟩
      rintro _ ⟨⟩
      refine ⟨hlong, whole, (hwhole.trans (List.takeWhile_prefix _)).isInfix, rfl, ?_⟩
      intro c hc
      exact List.all_eq_true.1 List.all_takeWhile c (hwhole.subset hc)
    · exact .ok hrest
  · next behind hfraction _ => exact .ok ((skipFraction?_suffix hfraction).trans hrest)
  · next behind hexponent =>
    -- the exponent is looked for behind the fraction, if there is one
    refine .ok ((skipExponent?_suffix hexponent).trans ?_)
    cases hfraction : skipFraction? rest with
    | none => exact hrest
    | some fraction => exact (skipFraction?_suffix hfraction).trans hrest

theorem scans_word (spelling : String) (value : Document) (cs : List Char) :
    Scans cs (word spelling value cs) := by
  unfold word
  split
  · exact .ok (List.drop_suffix _ cs)
  · exact .malformed

theorem scans_scalar (cs : List Char) : Scans cs (scalar cs) := by
  unfold scalar
  split
  case h_7 rest _ => exact (scans_unsigned rest).mono (List.suffix_cons _ rest)
  case h_8 => exact scans_unsigned cs
  all_goals exact scans_word ..

/-! ## Documents -/

theorem scans_fieldName (cs : List Char) : Scans cs (fieldName cs) := by
  unfold fieldName
  split
  · next rest =>
    refine ((scans_stringTail none rest).bind fun name rest => ?_).mono (List.suffix_cons _ rest)
    dsimp only
    split
    · next behind hcolon => exact .ok (suffix_of_skipBlanks hcolon)
    · exact .malformed
  · exact .malformed

/-- What is read with so much fuel takes its part off the front of the text. -/
structure ScansWithin (fuel : Nat) : Prop where
  value (cs : List Char) : Scans cs (value fuel cs)
  elements (cs : List Char) : Scans cs (elements fuel cs)
  members (fields : List (Option String × Document)) (cs : List Char) :
    Scans cs (members fuel fields cs)

namespace ScansWithin

variable {fuel : Nat}

theorem value_succ (h : ScansWithin fuel) (cs : List Char) :
    Scans cs (Document.value (fuel + 1) cs) := by
  unfold Document.value
  split
  · next rest hquote =>
    exact .mono (suffix_of_skipBlanks hquote)
      (.bind (scans_stringTail none rest) fun content rest => .ok (List.suffix_refl rest))
  · next rest hopen =>
    refine .mono (suffix_of_skipBlanks hopen) ?_
    split
    · next behind hclose => exact .ok (suffix_of_skipBlanks hclose)
    · exact .mono (skipBlanks_suffix rest)
        (.bind (h.elements _) fun items rest => .ok (List.suffix_refl rest))
  · next rest hopen =>
    refine .mono (suffix_of_skipBlanks hopen) ?_
    split
    · next behind hclose => exact .ok (suffix_of_skipBlanks hclose)
    · exact .mono (skipBlanks_suffix rest)
        (.bind (h.members [] _) fun fields rest => .ok (List.suffix_refl rest))
  · exact .mono (skipBlanks_suffix cs) (scans_scalar _)

theorem elements_succ (h : ScansWithin fuel) (cs : List Char) :
    Scans cs (Document.elements (fuel + 1) cs) := by
  unfold Document.elements
  refine (h.value cs).bind fun item rest => ?_
  dsimp only
  split
  · next behind hclose => exact .ok (suffix_of_skipBlanks hclose)
  · next behind hcomma =>
    exact .mono (suffix_of_skipBlanks hcomma)
      (.bind (h.elements behind) fun items rest => .ok (List.suffix_refl rest))
  · exact .malformed

theorem members_succ (h : ScansWithin fuel) (fields : List (Option String × Document))
    (cs : List Char) : Scans cs (Document.members (fuel + 1) fields cs) := by
  unfold Document.members
  refine ((scans_fieldName _).mono (skipBlanks_suffix cs)).bind fun name rest => ?_
  refine (h.value rest).bind fun v rest => ?_
  dsimp only
  split
  · next behind hclose => exact .ok (suffix_of_skipBlanks hclose)
  · next behind hcomma => exact (h.members _ behind).mono (suffix_of_skipBlanks hcomma)
  · exact .malformed

end ScansWithin

theorem scansWithin (fuel : Nat) : ScansWithin fuel := by
  induction fuel with
  | zero => exact ⟨fun _ => .malformed, fun _ => .malformed, fun _ _ => .malformed⟩
  | succ fuel ih => exact ⟨ih.value_succ, ih.elements_succ, ih.members_succ⟩

/-- A text is refused for the digits of a number only if it has as many in a row. -/
theorem overlong_of_ofText {text : List Char} {n : Nat}
    (h : ofText text = .error (.tooManyDigits n)) : Overlong n text := by
  have hscans := (scansWithin (2 * text.length + 2)).value text
  unfold ofText at h
  cases hvalue : value (2 * text.length + 2) text with
  | error e =>
    rw [hvalue] at h
    cases h
    exact hscans.overlong hvalue
  | ok result =>
    obtain ⟨document, rest⟩ := result
    rw [hvalue] at h
    simp only [bind, Except.bind] at h
    split at h <;> cases h

end ModelScript.Document
