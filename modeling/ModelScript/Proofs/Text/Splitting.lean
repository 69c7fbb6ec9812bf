/-!
# Splitting a text

A text is cut at every place where a separator stands, from the left to the right, and goes on
behind it.  Pieces come back out of a joined text as long as no separator arises in one of them or
across the seams.  That is so where the character that the separator begins with is in none of them:

    c ∉ part for every part  →  split (c :: tail) ((c :: tail).intercalate parts) = parts
                                                                        (split_intercalate)

`pieces` is the same for strings.
-/

namespace ModelScript.Text

/-- The pieces of a text behind its first `skip` characters, cut at the separators. -/
def splitFrom (separator : List Char) : Nat → List Char → List (List Char)
  | _, [] => [[]]
  | skip + 1, _ :: text => splitFrom separator skip text
  | 0, c :: text =>
    if separator.isPrefixOf (c :: text) then [] :: splitFrom separator (separator.length - 1) text
    else (splitFrom separator 0 text).modifyHead (c :: ·)

/-- The pieces of a text between the separators in it. -/
def split (separator text : List Char) : List (List Char) := splitFrom separator 0 text

def pieces (separator text : String) : List String :=
  (split separator.toList text.toList).map String.ofList

variable {separator : List Char}

theorem splitFrom_length_append (front rest : List Char) :
    splitFrom separator front.length (front ++ rest) = split separator rest := by
  induction front with
  | nil => rfl
  | cons c front ih => exact ih

/-- A separator at the front ends an empty piece. -/
theorem split_append (h : separator ≠ []) (rest : List Char) :
    split separator (separator ++ rest) = [] :: split separator rest := by
  obtain ⟨c, tail, rfl⟩ := List.exists_cons_of_ne_nil h
  have hprefix : (c :: tail).isPrefixOf (c :: (tail ++ rest)) = true := by
    rw [List.isPrefixOf_iff_prefix]
    exact List.prefix_append (c :: tail) rest
  rw [← splitFrom_length_append tail rest, List.cons_append, split, splitFrom, if_pos hprefix,
    List.length_cons, Nat.add_sub_cancel]

/-- A character where no separator stands belongs to the first piece. -/
theorem split_cons {c : Char} {text : List Char} (h : ¬ separator <+: c :: text) :
    split separator (c :: text) = (split separator text).modifyHead (c :: ·) := by
  rw [← List.isPrefixOf_iff_prefix] at h
  rw [split, splitFrom, if_neg h]
  rfl

/-- A piece without the character that the separator begins with, and a separator behind it. -/
theorem split_append_separator {c : Char} {tail part : List Char} (h : c ∉ part)
    (rest : List Char) :
    split (c :: tail) (part ++ (c :: tail ++ rest)) = part :: split (c :: tail) rest := by
  induction part with
  | nil => exact split_append (List.cons_ne_nil c tail) rest
  | cons d part ih =>
    obtain ⟨hd, hpart⟩ := not_or.1 (mt List.mem_cons.2 h)
    have hprefix : ¬ c :: tail <+: d :: (part ++ (c :: tail ++ rest)) :=
      fun hp => hd (List.cons_prefix_cons.1 hp).1
    rw [List.cons_append, split_cons hprefix, ih hpart, List.modifyHead_cons]

theorem split_of_not_mem {c : Char} {tail part : List Char} (h : c ∉ part) :
    split (c :: tail) part = [part] := by
  induction part with
  | nil => rfl
  | cons d part ih =>
    obtain ⟨hd, hpart⟩ := not_or.1 (mt List.mem_cons.2 h)
    have hprefix : ¬ c :: tail <+: d :: part := fun hp => hd (List.cons_prefix_cons.1 hp).1
    rw [split_cons hprefix, ih hpart, List.modifyHead_cons]

/-- Splitting undoes joining if the character that the separator begins with is in no piece. -/
theorem split_intercalate {c : Char} {tail : List Char} {parts : List (List Char)}
    (hne : parts ≠ []) (h : ∀ part ∈ parts, c ∉ part) :
    split (c :: tail) ((c :: tail).intercalate parts) = parts := by
  induction parts with
  | nil => exact absurd rfl hne
  | cons part rest ih =>
    obtain ⟨hpart, hrest⟩ := List.forall_mem_cons.1 h
    cases rest with
    | nil => rw [List.intercalate_singleton, split_of_not_mem hpart]
    | cons next rest =>
      rw [List.intercalate_cons_cons, List.append_assoc, split_append_separator hpart,
        ih (List.cons_ne_nil next rest) hrest]

theorem pieces_intercalate {separator : String} {c : Char} {tail : List Char}
    (hseparator : separator.toList = c :: tail) {parts : List String} (hne : parts ≠ [])
    (h : ∀ part ∈ parts, c ∉ part.toList) :
    pieces separator (separator.intercalate parts) = parts := by
  have hchars : ∀ part ∈ parts.map String.toList, c ∉ part := List.forall_mem_map.2 h
  rw [pieces, String.toList_intercalate, hseparator, split_intercalate (by simpa using hne) hchars,
    List.map_map]
  simp [Function.comp_def]

end ModelScript.Text
