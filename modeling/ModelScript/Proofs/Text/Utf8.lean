import ModelScript.Text.Utf8

/-!
# Strict UTF-8 is UTF-8

The reader of bytes accepts exactly the encodings of texts, and gives back the text
(`decode_eq_ok_iff`).  It keeps the character under way; `Spells bs n` says by the same bounds, but
without positions, that the bytes `bs` are a character with the code point `n`.  By arithmetic these
are the bytes that the library encodes the character as (`Spells.eq_encode`, `spells_encode`).
-/

namespace ModelScript.Text.Utf8

/-! ## Characters -/

/-- The bytes that a lead still asks for, and the code point that they lead to. -/
inductive Continues : Lead → List UInt8 → Nat → Prop
  | last {lead : Lead} {b : UInt8} (hlow : lead.low ≤ b) (hhigh : b ≤ lead.high)
    (h : lead.owed ≤ 1) : Continues lead [b] (lead.bits * 64 + (b.toNat - 0x80))
  | more {lead : Lead} {b : UInt8} {bs : List UInt8} {n : Nat} (hlow : lead.low ≤ b)
    (hhigh : b ≤ lead.high) (h : ¬ lead.owed ≤ 1)
    (hrest : Continues ⟨lead.bits * 64 + (b.toNat - 0x80), lead.owed - 1, 0x80, 0xBF⟩ bs n) :
    Continues lead (b :: bs) n

/-- The bytes of one character. -/
inductive Spells : List UInt8 → Nat → Prop
  | single {b low high : UInt8} {bits : Nat} (h : lead? b = some ⟨bits, 0, low, high⟩) :
    Spells [b] bits
  | several {b : UInt8} {lead : Lead} {bs : List UInt8} {n : Nat} (h : lead? b = some lead)
    (howed : lead.owed ≠ 0) (hrest : Continues lead bs n) : Spells (b :: bs) n

/-! ## The scan -/

/-- The rest of a character under way is taken as a whole. -/
theorem scan_continues {p : Pending} {bs : List UInt8} {n : Nat} (h : Continues p.lead bs n)
    (position : Nat) (rest : List UInt8) :
    scan position (some p) (bs ++ rest)
      = (Char.ofNat n :: ·) <$> scan (position + bs.length) none rest := by
  obtain ⟨start, byte, lead⟩ := p
  dsimp only at h
  induction h generalizing position with
  | last hlow hhigh h => simp [scan, hlow, hhigh, h]
  | @more lead b bs n hlow hhigh h hrest ih =>
    rw [List.cons_append, scan, if_pos (by simp [hlow, hhigh]), if_neg h, ih, List.length_cons,
      Nat.add_right_comm, Nat.add_assoc]

theorem scan_spells {bs : List UInt8} {n : Nat} (h : Spells bs n) (position : Nat)
    (rest : List UInt8) :
    scan position none (bs ++ rest)
      = (Char.ofNat n :: ·) <$> scan (position + bs.length) none rest := by
  cases h with
  | single h => simp [scan, h]
  | @several b lead bs n h howed hrest =>
    obtain ⟨bits, owed, low, high⟩ := lead
    cases owed with
    | zero => exact absurd rfl howed
    | succ owed =>
      rw [List.cons_append, scan, h]
      show scan (position + 1) (some ⟨position, b, _⟩) (bs ++ rest) = _
      rw [scan_continues hrest, List.length_cons, Nat.add_right_comm, Nat.add_assoc]

theorem exists_of_map_eq_ok {c : Char} {x : Except Fault (List Char)} {cs : List Char}
    (h : (c :: ·) <$> x = .ok cs) : ∃ cs', x = .ok cs' ∧ cs = c :: cs' := by
  cases x with
  | error f => cases h
  | ok cs' =>
    cases h
    exact ⟨cs', rfl, rfl⟩

/-- A scan in the middle of a character begins with the rest of it. -/
theorem exists_continues {position : Nat} {p : Pending} {bytes : List UInt8} {cs : List Char}
    (h : scan position (some p) bytes = .ok cs) :
    ∃ bs n rest cs', bytes = bs ++ rest ∧ Continues p.lead bs n ∧ cs = Char.ofNat n :: cs' ∧
      scan (position + bs.length) none rest = .ok cs' := by
  induction bytes generalizing position p with
  | nil => cases h
  | cons b bytes ih =>
    rw [scan] at h
    split at h
    · next hbounds =>
      obtain ⟨hlow, hhigh⟩ := Bool.and_eq_true_iff.1 hbounds
      have hlow := of_decide_eq_true hlow
      have hhigh := of_decide_eq_true hhigh
      dsimp only at h
      split at h
      · next hlast =>
        obtain ⟨cs', hscan, rfl⟩ := exists_of_map_eq_ok h
        exact ⟨[b], _, bytes, cs', rfl, .last hlow hhigh hlast, rfl, hscan⟩
      · next hmore =>
        obtain ⟨bs, n, rest, cs', rfl, hrest, rfl, hscan⟩ := ih h
        refine ⟨b :: bs, n, rest, cs', rfl, .more hlow hhigh hmore hrest, rfl, ?_⟩
        rwa [List.length_cons, Nat.add_comm bs.length, ← Nat.add_assoc]
    · cases h

/-- A scan between characters begins with a character. -/
theorem exists_spells {position : Nat} {b : UInt8} {bytes : List UInt8} {cs : List Char}
    (h : scan position none (b :: bytes) = .ok cs) :
    ∃ bs n rest cs', b :: bytes = bs ++ rest ∧ Spells bs n ∧ cs = Char.ofNat n :: cs' ∧
      scan (position + bs.length) none rest = .ok cs' := by
  rw [scan] at h
  split at h
  · cases h
  · next bits low high hlead =>
    obtain ⟨cs', hscan, rfl⟩ := exists_of_map_eq_ok h
    exact ⟨[b], bits, bytes, cs', rfl, .single hlead, rfl, hscan⟩
  · next lead howed hlead =>
    obtain ⟨bs, n, rest, cs', rfl, hrest, rfl, hscan⟩ := exists_continues h
    refine ⟨b :: bs, n, rest, cs', rfl, .several hlead ?_ hrest, rfl, ?_⟩
    · intro hzero
      obtain ⟨bits, owed, low, high⟩ := lead
      exact howed bits low high (by rw [← hzero])
    · rwa [List.length_cons, Nat.add_comm bs.length, ← Nat.add_assoc]

/-! ## The encoding -/

/-- The bytes that start a character, by their numbers.  The bounds of the next byte keep out code
points that need fewer bytes, surrogates and what is no code point. -/
inductive Leads (b : UInt8) : Lead → Prop
  | one (h : b.toNat < 0x80) : Leads b ⟨b.toNat, 0, 0x80, 0xBF⟩
  | two {bits : Nat} (hb : b.toNat = bits + 0xC0) (h : 2 ≤ bits) (h' : bits < 32) :
    Leads b ⟨bits, 1, 0x80, 0xBF⟩
  | three {bits : Nat} (hb : b.toNat = bits + 0xE0) (h : bits < 16) :
    Leads b ⟨bits, 2, if bits = 0 then 0xA0 else 0x80, if bits = 13 then 0x9F else 0xBF⟩
  | four {bits : Nat} (hb : b.toNat = bits + 0xF0) (h : bits < 5) :
    Leads b ⟨bits, 3, if bits = 0 then 0x90 else 0x80, if bits = 4 then 0x8F else 0xBF⟩

/-- The demands of a byte, by its number. -/
theorem lead?_eq (b : UInt8) :
    lead? b =
      if b.toNat < 0x80 then some ⟨b.toNat, 0, 0x80, 0xBF⟩
      else if b.toNat < 0xC2 then none
      else if b.toNat < 0xE0 then some ⟨b.toNat - 0xC0, 1, 0x80, 0xBF⟩
      else if b.toNat = 0xE0 then some ⟨0, 2, 0xA0, 0xBF⟩
      else if b.toNat = 0xED then some ⟨0xD, 2, 0x80, 0x9F⟩
      else if b.toNat < 0xF0 then some ⟨b.toNat - 0xE0, 2, 0x80, 0xBF⟩
      else if b.toNat = 0xF0 then some ⟨0, 3, 0x90, 0xBF⟩
      else if b.toNat < 0xF4 then some ⟨b.toNat - 0xF0, 3, 0x80, 0xBF⟩
      else if b.toNat = 0xF4 then some ⟨4, 3, 0x80, 0x8F⟩
      else none := by
  unfold lead?
  simp only [UInt8.lt_iff_toNat_lt, ← UInt8.toNat_inj]
  rfl

theorem leads_of_lead? {b : UInt8} {lead : Lead} (h : lead? b = some lead) : Leads b lead := by
  -- leads of three and of four bytes whose next byte is bounded in no special way
  have three {bits : Nat} (hb : b.toNat = bits + 0xE0) (hbits : bits < 16) (h0 : bits ≠ 0)
      (h13 : bits ≠ 13) : Leads b ⟨bits, 2, 0x80, 0xBF⟩ := by
    have := Leads.three hb hbits
    rwa [if_neg h0, if_neg h13] at this
  have four {bits : Nat} (hb : b.toNat = bits + 0xF0) (hbits : bits < 5) (h0 : bits ≠ 0)
      (h4 : bits ≠ 4) : Leads b ⟨bits, 3, 0x80, 0xBF⟩ := by
    have := Leads.four hb hbits
    rwa [if_neg h0, if_neg h4] at this
  rw [lead?_eq] at h
  split at h
  · rw [← Option.some.inj h]
    exact .one (by assumption)
  split at h
  · cases h
  split at h
  · rw [← Option.some.inj h]
    exact .two (by omega) (by omega) (by omega)
  split at h
  · rw [← Option.some.inj h]
    exact @Leads.three b 0 (by omega) (by omega)
  split at h
  · rw [← Option.some.inj h]
    exact @Leads.three b 13 (by omega) (by omega)
  split at h
  · rw [← Option.some.inj h]
    exact three (by omega) (by omega) (by omega) (by omega)
  split at h
  · rw [← Option.some.inj h]
    exact @Leads.four b 0 (by omega) (by omega)
  split at h
  · rw [← Option.some.inj h]
    exact four (by omega) (by omega) (by omega) (by omega)
  split at h
  · rw [← Option.some.inj h]
    exact @Leads.four b 4 (by omega) (by omega)
  · cases h

theorem Leads.lead?_eq_some {b : UInt8} {lead : Lead} (h : Leads b lead) :
    lead? b = some lead := by
  rw [lead?_eq]
  cases h with
  | one h => rw [if_pos h]
  | two hb h h' =>
    rw [if_neg (by omega), if_neg (by omega), if_pos (by omega), hb, Nat.add_sub_cancel]
  | @three bits hb h =>
    rw [if_neg (by omega), if_neg (by omega), if_neg (by omega)]
    by_cases h0 : bits = 0
    · subst h0
      rw [if_pos hb]
      rfl
    rw [if_neg (by omega)]
    by_cases h13 : bits = 13
    · subst h13
      rw [if_pos hb]
      rfl
    · rw [if_neg (by omega), if_pos (by omega), if_neg h0, if_neg h13, hb, Nat.add_sub_cancel]
  | @four bits hb h =>
    rw [if_neg (by omega), if_neg (by omega), if_neg (by omega), if_neg (by omega),
      if_neg (by omega), if_neg (by omega)]
    by_cases h0 : bits = 0
    · subst h0
      rw [if_pos hb]
      rfl
    rw [if_neg (by omega)]
    by_cases h4 : bits = 4
    · subst h4
      rw [if_neg (by omega), if_pos hb]
      rfl
    · rw [if_pos (by omega), if_neg h0, if_neg h4, hb, Nat.add_sub_cancel]

/-- The bytes of a character by its code point. -/
theorem utf8EncodeChar_ofNat {n : Nat} (h : n.isValidChar) :
    String.utf8EncodeChar (Char.ofNat n)
      = if n ≤ 0x7F then [UInt8.ofNat n]
        else if n ≤ 0x7FF then [UInt8.ofNat (n / 64 % 32 + 0xC0), UInt8.ofNat (n % 64 + 0x80)]
        else if n ≤ 0xFFFF then
          [UInt8.ofNat (n / 4096 % 16 + 0xE0), UInt8.ofNat (n / 64 % 64 + 0x80),
            UInt8.ofNat (n % 64 + 0x80)]
        else
          [UInt8.ofNat (n / 262144 % 8 + 0xF0), UInt8.ofNat (n / 4096 % 64 + 0x80),
            UInt8.ofNat (n / 64 % 64 + 0x80), UInt8.ofNat (n % 64 + 0x80)] := by
  have hval : (Char.ofNat n).val.toNat = n := by
    unfold Char.ofNat
    rw [dif_pos h]
    rfl
  unfold String.utf8EncodeChar
  rw [hval]

theorem ofNat_eq_of_toNat {b : UInt8} {m : Nat} (h : b.toNat = m) : UInt8.ofNat m = b := by
  rw [← h, UInt8.ofNat_toNat]

section

variable {n : Nat} {b c d e : UInt8}

theorem utf8EncodeChar_one (hb : b.toNat = n) (h : n ≤ 0x7F) :
    String.utf8EncodeChar (Char.ofNat n) = [b] := by
  rw [utf8EncodeChar_ofNat (Or.inl (by omega)), if_pos h, ofNat_eq_of_toNat hb]

theorem utf8EncodeChar_two (hb : b.toNat = n / 64 + 0xC0) (hc : c.toNat = n % 64 + 0x80)
    (hn : 0x80 ≤ n) (hn' : n ≤ 0x7FF) : String.utf8EncodeChar (Char.ofNat n) = [b, c] := by
  have hb' : b.toNat = n / 64 % 32 + 0xC0 := by omega
  rw [utf8EncodeChar_ofNat (Or.inl (by omega)), if_neg (by omega), if_pos hn',
    ofNat_eq_of_toNat hb', ofNat_eq_of_toNat hc]

theorem utf8EncodeChar_three (hb : b.toNat = n / 4096 + 0xE0) (hc : c.toNat = n / 64 % 64 + 0x80)
    (hd : d.toNat = n % 64 + 0x80) (hn : 0x800 ≤ n) (hn' : n ≤ 0xFFFF) (h : n.isValidChar) :
    String.utf8EncodeChar (Char.ofNat n) = [b, c, d] := by
  have hb' : b.toNat = n / 4096 % 16 + 0xE0 := by omega
  rw [utf8EncodeChar_ofNat h, if_neg (by omega), if_neg (by omega), if_pos hn',
    ofNat_eq_of_toNat hb', ofNat_eq_of_toNat hc, ofNat_eq_of_toNat hd]

theorem utf8EncodeChar_four (hb : b.toNat = n / 262144 + 0xF0)
    (hc : c.toNat = n / 4096 % 64 + 0x80) (hd : d.toNat = n / 64 % 64 + 0x80)
    (he : e.toNat = n % 64 + 0x80) (hn : 0x10000 ≤ n) (h : n.isValidChar) :
    String.utf8EncodeChar (Char.ofNat n) = [b, c, d, e] := by
  have hb' : b.toNat = n / 262144 % 8 + 0xF0 := by
    unfold Nat.isValidChar at h
    omega
  rw [utf8EncodeChar_ofNat h, if_neg (by omega), if_neg (by omega), if_neg (by omega),
    ofNat_eq_of_toNat hb', ofNat_eq_of_toNat hc, ofNat_eq_of_toNat hd, ofNat_eq_of_toNat he]

end

/-! ## The bytes of a character -/

section

variable {bits n : Nat} {low high : UInt8} {bs : List UInt8}

/-- The rest of a character, one byte of it. -/
theorem continues_one_iff :
    Continues ⟨bits, 1, low, high⟩ bs n ↔
      ∃ b : UInt8, bs = [b] ∧ low ≤ b ∧ b ≤ high ∧ n = bits * 64 + (b.toNat - 0x80) := by
  constructor
  · intro h
    cases h with
    | @last _ b hlow hhigh h => exact ⟨b, rfl, hlow, hhigh, rfl⟩
    | more hlow hhigh h hrest => exact absurd (Nat.le_refl 1) h
  · rintro ⟨b, rfl, hlow, hhigh, hn⟩
    rw [hn]
    exact @Continues.last ⟨bits, 1, low, high⟩ b hlow hhigh (Nat.le_refl 1)

/-- The rest of a character, a byte and then what that byte leaves. -/
theorem continues_succ_iff {owed : Nat} (ho : 1 ≤ owed) :
    Continues ⟨bits, owed + 1, low, high⟩ bs n ↔
      ∃ (b : UInt8) (rest : List UInt8), bs = b :: rest ∧ low ≤ b ∧ b ≤ high ∧
        Continues ⟨bits * 64 + (b.toNat - 0x80), owed, 0x80, 0xBF⟩ rest n := by
  constructor
  · intro h
    cases h with
    | last hlow hhigh h =>
      have h : owed + 1 ≤ 1 := h
      omega
    | more hlow hhigh h hrest => exact ⟨_, _, rfl, hlow, hhigh, hrest⟩
  · rintro ⟨b, rest, rfl, hlow, hhigh, hrest⟩
    have hmore : ¬ owed + 1 ≤ 1 := by omega
    exact @Continues.more ⟨bits, owed + 1, low, high⟩ b rest n hlow hhigh hmore hrest

end

/-- The bytes of a character are those that it is encoded as. -/
theorem Spells.eq_encode {bs : List UInt8} {n : Nat} (h : Spells bs n) :
    n.isValidChar ∧ bs = String.utf8EncodeChar (Char.ofNat n) := by
  cases h with
  | single h =>
    cases leads_of_lead? h with
    | one h => exact ⟨Or.inl (by omega), (utf8EncodeChar_one rfl (by omega)).symm⟩
  | several h howed hrest =>
    cases leads_of_lead? h with
    | one h => exact absurd rfl howed
    | two hb h h' =>
      obtain ⟨c, rfl, hc, hc', hn⟩ := continues_one_iff.1 hrest
      simp only [UInt8.le_iff_toNat_le, UInt8.reduceToNat] at hc hc'
      exact ⟨Or.inl (by omega),
        (utf8EncodeChar_two (by omega) (by omega) (by omega) (by omega)).symm⟩
    | @three bits hb h =>
      obtain ⟨c, bs, rfl, hc, hc', hrest⟩ := (continues_succ_iff (Nat.le_refl 1)).1 hrest
      obtain ⟨d, rfl, hd, hd', hn⟩ := continues_one_iff.1 hrest
      simp only [UInt8.le_iff_toNat_le, apply_ite UInt8.toNat, UInt8.reduceToNat] at hc hc' hd hd'
      have hlow : 0x80 ≤ c.toNat ∧ (bits = 0 → 0xA0 ≤ c.toNat) := by split at hc <;> omega
      have hhigh : c.toNat ≤ 0xBF ∧ (bits = 13 → c.toNat ≤ 0x9F) := by split at hc' <;> omega
      have hvalid : n.isValidChar := by
        unfold Nat.isValidChar
        omega
      exact ⟨hvalid, (utf8EncodeChar_three (by omega) (by omega) (by omega) (by omega)
        (by omega) hvalid).symm⟩
    | @four bits hb h =>
      obtain ⟨c, bs, rfl, hc, hc', hrest⟩ := (continues_succ_iff (by decide)).1 hrest
      obtain ⟨d, bs, rfl, hd, hd', hrest⟩ := (continues_succ_iff (Nat.le_refl 1)).1 hrest
      obtain ⟨e, rfl, he, he', hn⟩ := continues_one_iff.1 hrest
      simp only [UInt8.le_iff_toNat_le, apply_ite UInt8.toNat, UInt8.reduceToNat]
        at hc hc' hd hd' he he'
      have hlow : 0x80 ≤ c.toNat ∧ (bits = 0 → 0x90 ≤ c.toNat) := by split at hc <;> omega
      have hhigh : c.toNat ≤ 0xBF ∧ (bits = 4 → c.toNat ≤ 0x8F) := by split at hc' <;> omega
      have hvalid : n.isValidChar := by
        unfold Nat.isValidChar
        omega
      exact ⟨hvalid, (utf8EncodeChar_four (by omega) (by omega) (by omega) (by omega) (by omega)
        hvalid).symm⟩

theorem exists_toNat_eq {m : Nat} (h : m < 256) : ∃ b : UInt8, b.toNat = m :=
  ⟨UInt8.ofNat m, by rw [UInt8.toNat_ofNat']; exact Nat.mod_eq_of_lt h⟩

/-- A byte with six bits of a code point, behind the first. -/
theorem bounds_of_toNat_eq {b : UInt8} {m : Nat} (h : b.toNat = m % 64 + 0x80) :
    0x80 ≤ b ∧ b ≤ 0xBF := by
  simp only [UInt8.le_iff_toNat_le, UInt8.reduceToNat]
  omega

/-- The bytes that a character is encoded as are read as that character. -/
theorem spells_encode {n : Nat} (h : n.isValidChar) :
    Spells (String.utf8EncodeChar (Char.ofNat n)) n := by
  have hmax : n < 0x110000 := by
    unfold Nat.isValidChar at h
    omega
  by_cases h1 : n ≤ 0x7F
  · obtain ⟨b, hb⟩ := exists_toNat_eq (m := n) (by omega)
    rw [utf8EncodeChar_one hb h1, ← hb]
    exact .single (Leads.one (by omega)).lead?_eq_some
  by_cases h2 : n ≤ 0x7FF
  · obtain ⟨b, hb⟩ := exists_toNat_eq (m := n / 64 + 0xC0) (by omega)
    obtain ⟨c, hc⟩ := exists_toNat_eq (m := n % 64 + 0x80) (by omega)
    rw [utf8EncodeChar_two hb hc (by omega) h2]
    refine .several (Leads.two hb (by omega) (by omega)).lead?_eq_some (Nat.succ_ne_zero _) ?_
    obtain ⟨hlow, hhigh⟩ := bounds_of_toNat_eq hc
    exact continues_one_iff.2 ⟨c, rfl, hlow, hhigh, by omega⟩
  by_cases h3 : n ≤ 0xFFFF
  · obtain ⟨b, hb⟩ := exists_toNat_eq (m := n / 4096 + 0xE0) (by omega)
    obtain ⟨c, hc⟩ := exists_toNat_eq (m := n / 64 % 64 + 0x80) (by omega)
    obtain ⟨d, hd⟩ := exists_toNat_eq (m := n % 64 + 0x80) (by omega)
    rw [utf8EncodeChar_three hb hc hd (by omega) h3 h]
    refine .several (Leads.three hb (by omega)).lead?_eq_some (Nat.succ_ne_zero _) ?_
    obtain ⟨hlow, hhigh⟩ := bounds_of_toNat_eq hd
    refine (continues_succ_iff (Nat.le_refl 1)).2
      ⟨c, [d], rfl, ?_, ?_, continues_one_iff.2 ⟨d, rfl, hlow, hhigh, by omega⟩⟩
    · simp only [UInt8.le_iff_toNat_le, apply_ite UInt8.toNat, UInt8.reduceToNat]
      split <;> omega
    · unfold Nat.isValidChar at h
      simp only [UInt8.le_iff_toNat_le, apply_ite UInt8.toNat, UInt8.reduceToNat]
      split <;> omega
  · obtain ⟨b, hb⟩ := exists_toNat_eq (m := n / 262144 + 0xF0) (by omega)
    obtain ⟨c, hc⟩ := exists_toNat_eq (m := n / 4096 % 64 + 0x80) (by omega)
    obtain ⟨d, hd⟩ := exists_toNat_eq (m := n / 64 % 64 + 0x80) (by omega)
    obtain ⟨e, he⟩ := exists_toNat_eq (m := n % 64 + 0x80) (by omega)
    rw [utf8EncodeChar_four hb hc hd he (by omega) h]
    refine .several (Leads.four hb (by omega)).lead?_eq_some (Nat.succ_ne_zero _) ?_
    obtain ⟨hlow, hhigh⟩ := bounds_of_toNat_eq hd
    obtain ⟨hlow', hhigh'⟩ := bounds_of_toNat_eq he
    refine (continues_succ_iff (by decide)).2 ⟨c, [d, e], rfl, ?_, ?_,
      (continues_succ_iff (Nat.le_refl 1)).2 ⟨d, [e], rfl, hlow, hhigh,
        continues_one_iff.2 ⟨e, rfl, hlow', hhigh', by omega⟩⟩⟩
    · simp only [UInt8.le_iff_toNat_le, apply_ite UInt8.toNat, UInt8.reduceToNat]
      split <;> omega
    · simp only [UInt8.le_iff_toNat_le, apply_ite UInt8.toNat, UInt8.reduceToNat]
      split <;> omega

/-! ## Texts -/

/-- Between characters, a scan finds exactly the characters whose encodings the bytes are. -/
theorem scan_eq_ok_iff (position : Nat) (bytes : List UInt8) (cs : List Char) :
    scan position none bytes = .ok cs ↔ bytes = cs.flatMap String.utf8EncodeChar := by
  constructor
  · intro h
    induction hlen : bytes.length using Nat.strongRecOn generalizing position bytes cs with
    | ind length ih =>
      cases bytes with
      | nil =>
        cases h
        rfl
      | cons b bytes =>
        obtain ⟨bs, n, rest, cs', hbytes, hspells, rfl, hscan⟩ := exists_spells h
        obtain ⟨-, hbs⟩ := hspells.eq_encode
        have hpos : 0 < bs.length := by cases hspells <;> simp
        rw [hbytes, List.length_append] at hlen
        rw [hbytes, List.flatMap_cons, ← hbs, ← ih rest.length (by omega) _ _ _ hscan rfl]
  · rintro rfl
    induction cs generalizing position with
    | nil => rfl
    | cons c cs ih =>
      have hspells := spells_encode (n := c.toNat) c.valid
      rw [Char.ofNat_toNat] at hspells
      rw [List.flatMap_cons, scan_spells hspells, ih, Char.ofNat_toNat]
      rfl

theorem encode_eq (text : String) : encode text = text.toList.flatMap String.utf8EncodeChar := by
  have htext : text.toByteArray = text.toList.utf8Encode := by
    conv => lhs; rw [← String.ofList_toList (s := text)]
    rw [String.toByteArray_ofList]
  show text.toByteArray.data.toList = _
  rw [htext]
  exact List.toList_data_toByteArray

/-- The bytes that are read as UTF-8 are the encoding of the text that they are read as. -/
theorem decode_eq_ok_iff (bytes : List UInt8) (cs : List Char) :
    decode bytes = .ok cs ↔ encode (String.ofList cs) = bytes := by
  rw [encode_eq, String.toList_ofList, eq_comm (b := bytes)]
  exact scan_eq_ok_iff 0 bytes cs

theorem decode_encode (text : String) : decode (encode text) = .ok text.toList := by
  rw [decode_eq_ok_iff, String.ofList_toList]

theorem encode_inj {text text' : String} : encode text = encode text' ↔ text = text' := by
  refine ⟨fun h => ?_, congrArg encode⟩
  have hdecode := decode_encode text
  rw [h, decode_encode] at hdecode
  exact (String.toList_inj.1 (Except.ok.inj hdecode)).symm

end ModelScript.Text.Utf8
