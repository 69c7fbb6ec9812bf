import Mathlib.Data.List.TakeWhile
import ModelScript.Scope

/-!
# Line breaks around and between tokens

`Blank ts` says that tokens are line breaks only.  Trimming cuts blank tokens off the ends of a list
(`exists_eq_trim`), and `unbroken` leaves out every line break.
-/

namespace ModelScript.Token

/-- Nothing but line breaks. -/
def Blank (ts : List Token) : Prop := ∀ t ∈ ts, t = .newline

/-- The tokens that are no line breaks. -/
def unbroken (ts : List Token) : List Token := ts.filter (!·.isNewline)

def trim (ts : List Token) : List Token := trimEnd (trimStart ts)

/-! ## Blank tokens -/

theorem isNewline_iff (t : Token) : t.isNewline = true ↔ t = .newline := by
  cases t <;> simp [isNewline]

theorem isNewline_eq_false_iff (t : Token) : t.isNewline = false ↔ t ≠ .newline := by
  rw [ne_eq, ← not_congr (isNewline_iff t), Bool.not_eq_true]

theorem kind_eq_newline_iff (t : Token) : t.kind = .newline ↔ t = .newline := by
  cases t <;> simp [kind]

theorem Blank.nil : Blank [] := fun _ h => by cases h

theorem blank_reverse (ts : List Token) : Blank ts.reverse ↔ Blank ts := by
  unfold Blank
  simp only [List.mem_reverse]

theorem blank_cons (t : Token) (ts : List Token) : Blank (t :: ts) ↔ t = .newline ∧ Blank ts := by
  unfold Blank
  simp only [List.mem_cons, forall_eq_or_imp]

/-! ## Counting line breaks -/

@[simp] theorem newlines_nil : newlines [] = 0 := rfl

@[simp] theorem newlines_newline_cons (ts : List Token) :
    newlines (.newline :: ts) = newlines ts + 1 :=
  List.countP_cons_of_pos rfl

theorem newlines_cons_of_ne {t : Token} (ht : t ≠ .newline) (ts : List Token) :
    newlines (t :: ts) = newlines ts :=
  List.countP_cons_of_neg (mt (isNewline_iff t).1 ht)

@[simp] theorem newlines_keyword_cons (k : Keyword) (ts : List Token) :
    newlines (.keyword k :: ts) = newlines ts := newlines_cons_of_ne (by simp) ts

@[simp] theorem newlines_ident_cons (name : String) (ts : List Token) :
    newlines (.ident name :: ts) = newlines ts := newlines_cons_of_ne (by simp) ts

@[simp] theorem newlines_mark_cons (m : Mark) (ts : List Token) :
    newlines (.mark m :: ts) = newlines ts := newlines_cons_of_ne (by simp) ts

attribute [simp] newlines_append

theorem trimStart_newline_cons (ts : List Token) : trimStart (.newline :: ts) = trimStart ts := rfl

theorem leadingNewlines_newline_cons (ts : List Token) :
    leadingNewlines (.newline :: ts) = leadingNewlines ts + 1 := rfl

theorem leadingNewlines_cons_of_ne {t : Token} (ht : t ≠ .newline) (ts : List Token) :
    leadingNewlines (t :: ts) = 0 := by
  unfold leadingNewlines
  rw [List.takeWhile_cons_of_neg (mt (isNewline_iff t).1 ht), List.length_nil]

/-- The first token that is no line break is the first one behind the line breaks. -/
theorem head?_trimStart (ts : List Token) : (trimStart ts).head? = significant? ts := by
  unfold trimStart significant?
  rw [List.find?_not_eq_head?_dropWhile]

/-! ## Leaving out line breaks -/

theorem unbroken_append (as bs : List Token) :
    unbroken (as ++ bs) = unbroken as ++ unbroken bs := List.filter_append as bs

theorem unbroken_cons_of_ne {t : Token} (ht : t ≠ .newline) (ts : List Token) :
    unbroken (t :: ts) = t :: unbroken ts := by
  have h := (isNewline_eq_false_iff t).2 ht
  simp [unbroken, h]

theorem Blank.unbroken_eq {ts : List Token} (h : Blank ts) : unbroken ts = [] := by
  unfold unbroken
  rw [List.filter_eq_nil_iff]
  intro t ht
  rw [h t ht]
  simp [isNewline]

theorem unbroken_eq_self {ts : List Token} (h : ∀ t ∈ ts, t ≠ .newline) : unbroken ts = ts := by
  unfold unbroken
  rw [List.filter_eq_self]
  intro t ht
  rw [(isNewline_eq_false_iff t).2 (h t ht)]
  rfl

theorem ne_newline_of_mem_unbroken {ts : List Token} {t : Token} (h : t ∈ unbroken ts) :
    t ≠ .newline := by
  obtain ⟨-, hn⟩ := List.mem_filter.1 h
  rw [← isNewline_eq_false_iff]
  simpa using hn

theorem unbroken_eq_nil_iff (ts : List Token) : unbroken ts = [] ↔ Blank ts := by
  constructor
  · intro h t ht
    by_contra hne
    have hm : t ∈ unbroken ts :=
      List.mem_filter.2 ⟨ht, by simp [(isNewline_eq_false_iff t).2 hne]⟩
    rw [h] at hm
    cases hm
  · exact Blank.unbroken_eq

/-- A token and what stands behind it, with the line breaks in front of it. -/
theorem exists_cons_of_unbroken {ts us : List Token} {t : Token} (h : unbroken ts = t :: us) :
    ∃ breaks rest, Blank breaks ∧ ts = breaks ++ t :: rest ∧ unbroken rest = us := by
  obtain ⟨breaks, rest, rfl, hb, -, hrest⟩ := List.filter_eq_cons_iff.1 h
  exact ⟨breaks, rest, (unbroken_eq_nil_iff breaks).1 (List.filter_eq_nil_iff.2 hb), rfl, hrest⟩

/-- A token with line breaks in front of it, and what stands on both sides. -/
theorem exists_append_cons_of_unbroken {ts left right : List Token} {t : Token}
    (h : unbroken ts = left ++ t :: right) :
    ∃ as bs, ts = as ++ t :: bs ∧ unbroken as = left ∧ unbroken bs = right := by
  obtain ⟨as, rest, rfl, has, hrest⟩ := List.filter_eq_append_iff.1 h
  obtain ⟨breaks, bs, hb, rfl, hbs⟩ := exists_cons_of_unbroken hrest
  refine ⟨as ++ breaks, bs, by simp, ?_, hbs⟩
  rw [unbroken_append, hb.unbroken_eq, List.append_nil]
  exact has

theorem significant?_unbroken (ts : List Token) :
    significant? (unbroken ts) = significant? ts := by
  unfold significant? unbroken
  rw [List.find?_filter]
  simp

/-! ## Trimming -/

theorem Blank.trimStart_append {as : List Token} (h : Blank as) (bs : List Token) :
    trimStart (as ++ bs) = trimStart bs := by
  unfold trimStart
  rw [List.dropWhile_append_of_pos]
  intro t ht
  exact (isNewline_iff t).2 (h t ht)

theorem Blank.leadingNewlines_append {as : List Token} (h : Blank as) (bs : List Token) :
    leadingNewlines (as ++ bs) = as.length + leadingNewlines bs := by
  unfold leadingNewlines
  rw [List.takeWhile_append_of_pos fun t ht => (isNewline_iff t).2 (h t ht), List.length_append]

theorem Blank.significant?_append {as : List Token} (h : Blank as) (bs : List Token) :
    significant? (as ++ bs) = significant? bs := by
  rw [← head?_trimStart, h.trimStart_append, head?_trimStart]

theorem trimStart_cons_of_ne {t : Token} (ht : t ≠ .newline) (ts : List Token) :
    trimStart (t :: ts) = t :: ts :=
  List.dropWhile_cons_of_neg (mt (isNewline_iff t).1 ht)

theorem Blank.trimStart_eq {ts : List Token} (h : Blank ts) : trimStart ts = [] := by
  have := h.trimStart_append []
  rwa [List.append_nil] at this

/-- Trimming the front cuts blank tokens off, as many as there are. -/
theorem exists_eq_trimStart (ts : List Token) : ∃ as, Blank as ∧ ts = as ++ trimStart ts
    ∧ as.length = leadingNewlines ts ∧ (trimStart ts).head? ≠ some .newline := by
  refine ⟨ts.takeWhile isNewline, ?_, List.takeWhile_append_dropWhile.symm, rfl, ?_⟩
  · intro t ht
    exact (isNewline_iff t).1 (List.all_eq_true.1 List.all_takeWhile t ht)
  · intro h
    have := List.head?_dropWhile_not isNewline ts
    unfold trimStart at h
    rw [h] at this
    simp [isNewline] at this

theorem trimStart_eq_nil_iff (ts : List Token) : trimStart ts = [] ↔ Blank ts := by
  constructor
  · intro h
    obtain ⟨as, ha, he, -⟩ := exists_eq_trimStart ts
    rw [h, List.append_nil] at he
    exact he ▸ ha
  · exact Blank.trimStart_eq

theorem trimEnd_eq (ts : List Token) : trimEnd ts = (trimStart ts.reverse).reverse := by
  obtain ⟨as, ha, he, hl, -⟩ := exists_eq_trimStart ts.reverse
  have hts : ts = (trimStart ts.reverse).reverse ++ as.reverse := by
    rw [← List.reverse_append, ← he, List.reverse_reverse]
  unfold trimEnd trailingNewlines
  rw [← hl]
  conv => lhs; rw [hts]
  rw [List.length_append, List.length_reverse, List.length_reverse, Nat.add_sub_cancel]
  exact List.take_left' (List.length_reverse)

theorem trimEnd_concat_of_ne {t : Token} (ht : t ≠ .newline) (ts : List Token) :
    trimEnd (ts ++ [t]) = ts ++ [t] := by
  rw [trimEnd_eq, List.reverse_append, List.reverse_singleton, List.singleton_append,
    trimStart_cons_of_ne ht, List.reverse_cons, List.reverse_reverse]

theorem Blank.trimEnd_append (ts : List Token) {bs : List Token} (h : Blank bs) :
    trimEnd (ts ++ bs) = trimEnd ts := by
  rw [trimEnd_eq, trimEnd_eq, List.reverse_append, ((blank_reverse bs).2 h).trimStart_append]

theorem exists_eq_trimEnd (ts : List Token) :
    ∃ bs, Blank bs ∧ ts = trimEnd ts ++ bs ∧ (trimEnd ts).getLast? ≠ some .newline := by
  obtain ⟨as, ha, he, -, hh⟩ := exists_eq_trimStart ts.reverse
  refine ⟨as.reverse, (blank_reverse as).2 ha, ?_, ?_⟩
  · rw [trimEnd_eq, ← List.reverse_append, ← he, List.reverse_reverse]
  · rwa [trimEnd_eq, List.getLast?_reverse]

/-- Neither end of these tokens is a line break. -/
structure Trimmed (ts : List Token) : Prop where
  head : ts.head? ≠ some .newline
  last : ts.getLast? ≠ some .newline

theorem Trimmed.trimStart_eq {ts : List Token} (h : Trimmed ts) : trimStart ts = ts := by
  cases ts with
  | nil => rfl
  | cons t ts => exact trimStart_cons_of_ne (fun ht => h.head (by rw [ht]; rfl)) ts

theorem Trimmed.leadingNewlines_eq {ts : List Token} (h : Trimmed ts) : leadingNewlines ts = 0 := by
  have := length_trimStart ts
  rw [h.trimStart_eq] at this
  omega

theorem Trimmed.trimEnd_eq {ts : List Token} (h : Trimmed ts) : trimEnd ts = ts := by
  rcases List.eq_nil_or_concat ts with rfl | ⟨ts, t, rfl⟩
  · rfl
  · rw [List.concat_eq_append] at h ⊢
    exact trimEnd_concat_of_ne (fun ht => h.last (by rw [ht, List.getLast?_concat])) ts

theorem Trimmed.trim_eq {ts : List Token} (h : Trimmed ts) : trim ts = ts := by
  unfold trim
  rw [h.trimStart_eq, h.trimEnd_eq]

theorem Trimmed.eq_nil_of_blank_tail {ts tail : List Token} (h : Trimmed (ts ++ tail))
    (ht : Blank tail) : tail = [] := by
  rcases List.eq_nil_or_concat tail with rfl | ⟨us, t, rfl⟩
  · rfl
  · have hl := h.last
    rw [ht t (by simp), List.concat_eq_append, ← List.append_assoc, List.getLast?_concat] at hl
    exact absurd rfl hl

theorem Trimmed.eq_nil_of_blank_head {head ts : List Token} (h : Trimmed (head ++ ts))
    (hb : Blank head) : head = [] := by
  cases head with
  | nil => rfl
  | cons t head =>
    obtain ⟨rfl, -⟩ := (blank_cons _ _).1 hb
    exact absurd rfl h.head

/-- What trimmed tokens begin with is trimmed without the line breaks behind it. -/
theorem Trimmed.trimEnd {ts rest : List Token} (ht : Trimmed (ts ++ rest)) :
    Trimmed (trimEnd ts) := by
  obtain ⟨bs, -, he, hlast⟩ := exists_eq_trimEnd ts
  refine ⟨fun hhead => ht.head ?_, hlast⟩
  rw [he, List.append_assoc, List.head?_append, hhead]
  rfl

/-- There are no line breaks in front of the first of trimmed tokens. -/
theorem Trimmed.exists_cons_of_unbroken {ts us : List Token} {t : Token} (ht : Trimmed ts)
    (h : unbroken ts = t :: us) : ∃ rest, ts = t :: rest ∧ unbroken rest = us := by
  obtain ⟨breaks, rest, hb, rfl, hrest⟩ := Token.exists_cons_of_unbroken h
  obtain rfl := ht.eq_nil_of_blank_head hb
  exact ⟨rest, rfl, hrest⟩

theorem Trimmed.eq_singleton_of_unbroken {ts : List Token} {t : Token} (ht : Trimmed ts)
    (h : unbroken ts = [t]) : ts = [t] := by
  obtain ⟨rest, rfl, hrest⟩ := ht.exists_cons_of_unbroken h
  rw [← List.singleton_append] at ht
  rw [ht.eq_nil_of_blank_tail ((unbroken_eq_nil_iff rest).1 hrest)]

theorem trimmed_of_forall {ts : List Token} (h : ∀ t ∈ ts, t ≠ .newline) : Trimmed ts where
  head := fun hh => h _ (List.mem_of_mem_head? hh) rfl
  last := fun hl => h _ (List.mem_of_mem_getLast? hl) rfl

theorem exists_eq_trim (ts : List Token) :
    ∃ as bs, Blank as ∧ Blank bs ∧ ts = as ++ trim ts ++ bs ∧ Trimmed (trim ts) := by
  obtain ⟨as, ha, hea, -, hh⟩ := exists_eq_trimStart ts
  obtain ⟨bs, hb, heb, hl⟩ := exists_eq_trimEnd (trimStart ts)
  refine ⟨as, bs, ha, hb, ?_, ?_, hl⟩
  · unfold trim
    rw [List.append_assoc, ← heb, ← hea]
  · unfold trim
    intro hc
    rw [heb, List.head?_append, hc] at hh
    exact hh rfl

theorem trimmed_unbroken (ts : List Token) : Trimmed (unbroken ts) :=
  trimmed_of_forall fun _ => ne_newline_of_mem_unbroken

theorem unbroken_trimStart (ts : List Token) : unbroken (trimStart ts) = unbroken ts := by
  obtain ⟨as, ha, he, -⟩ := exists_eq_trimStart ts
  conv => rhs; rw [he, unbroken_append, ha.unbroken_eq, List.nil_append]

theorem unbroken_trimEnd (ts : List Token) : unbroken (trimEnd ts) = unbroken ts := by
  obtain ⟨bs, hb, he, -⟩ := exists_eq_trimEnd ts
  conv => rhs; rw [he, unbroken_append, hb.unbroken_eq, List.append_nil]

theorem unbroken_trim (ts : List Token) : unbroken (trim ts) = unbroken ts := by
  unfold trim
  rw [unbroken_trimEnd, unbroken_trimStart]

/-- Trimmed tokens that end in some tokens end in one that is no line break. -/
theorem Trimmed.not_blank_tail (ts : List Token) {tail : List Token} (h : Trimmed (ts ++ tail))
    (hne : tail ≠ []) : ¬ Blank tail := fun hb => hne (h.eq_nil_of_blank_tail hb)

/-! ## Counting and trimming -/

theorem Blank.newlines_eq {ts : List Token} (h : Blank ts) : newlines ts = ts.length := by
  unfold newlines
  rw [List.countP_eq_length]
  exact fun t ht => (isNewline_iff t).2 (h t ht)

theorem newlines_trimEnd_le (ts : List Token) : newlines (trimEnd ts) ≤ newlines ts := by
  obtain ⟨bs, -, he, -⟩ := exists_eq_trimEnd ts
  have h := congrArg newlines he
  rw [newlines_append] at h
  omega

/-- The line breaks up to the last token are those at the front and those between the ends. -/
theorem newlines_trimEnd {ts : List Token} (h : trim ts ≠ []) :
    newlines (trimEnd ts) = leadingNewlines ts + newlines (trim ts) := by
  obtain ⟨as, ha, he, hl, -⟩ := exists_eq_trimStart ts
  obtain ⟨bs, hb, he', hlast⟩ := exists_eq_trimEnd (trimStart ts)
  have hbody : trimEnd (as ++ trim ts) = as ++ trim ts := by
    rcases List.eq_nil_or_concat (trim ts) with hnil | ⟨us, t, ht⟩
    · exact absurd hnil h
    · rw [ht, List.concat_eq_append, ← List.append_assoc]
      refine trimEnd_concat_of_ne ?_ _
      rintro rfl
      unfold trim at ht
      rw [ht] at hlast
      simp at hlast
  have hends : trimEnd ts = as ++ trim ts := by
    have hts : ts = as ++ trim ts ++ bs := by
      unfold trim
      rw [List.append_assoc, ← he', ← he]
    conv => lhs; rw [hts, hb.trimEnd_append, hbody]
  rw [hends, newlines_append, ha.newlines_eq, hl]

end ModelScript.Token
