import ModelScript.Proofs.Files.Reading
import ModelScript.Proofs.Files.Writing

/-!
# Trees that hang together

A tree is sound if each of its entries has names of its own, and every directory on the way to it
has an entry.  Then the names of an entry lead down to it from every directory on the way
(`Leads.follow_eq`), and the entry is the one that is found there (`Sound.get?_of_mem`).

A tree with nothing but its working directory is sound (`sound_bare`), and a sound tree stays sound
when texts are written (`Sound.writeAll`).
-/

namespace ModelScript.FileTree

variable {t t' : FileTree} {p : Path} {names : List String}

/-! ## Ways -/

/-- Whether all names but the last lead down from the root through directories. -/
def Leads (t : FileTree) (names : List String) : Prop :=
  ".." ∉ names ∧ ∀ n < names.length, t.get? (names.take n) = some .directory

instance (t : FileTree) (names : List String) : Decidable (t.Leads names) :=
  inferInstanceAs (Decidable (_ ∧ _))

theorem Leads.nil (t : FileTree) : t.Leads [] := ⟨List.not_mem_nil, nofun⟩

theorem Leads.directory {rest : List String} (h : t.Leads (names ++ rest)) (hne : rest ≠ []) :
    t.get? names = some .directory := by
  have hlt : names.length < (names ++ rest).length := by
    rw [List.length_append]
    have := List.length_pos_of_ne_nil hne
    omega
  have hdirectory := h.2 names.length hlt
  rwa [List.take_left' rfl] at hdirectory

theorem Leads.of_prefix {others : List String} (h : t.Leads others) (hp : names <+: others) :
    t.Leads names := by
  obtain ⟨rest, rfl⟩ := hp
  refine ⟨fun hup => h.1 (List.mem_append_left rest hup), fun n hn => ?_⟩
  have hdirectory := h.2 n (by rw [List.length_append]; omega)
  rwa [List.take_append_of_le_length (by omega)] at hdirectory

theorem Leads.concat (h : t.Leads names) (hd : t.get? names = some .directory) {name : String}
    (hup : name ≠ "..") : t.Leads (names ++ [name]) := by
  refine ⟨by simp [h.1, Ne.symm hup], fun n hn => ?_⟩
  rw [List.length_append, List.length_singleton] at hn
  rw [List.take_append_of_le_length (by omega)]
  by_cases hlast : n = names.length
  · rw [hlast, List.take_length, hd]
  · exact h.2 n (by omega)

theorem Leads.follow_eq {base : List String} (h : t.Leads (base ++ names)) :
    t.follow base names = .ok (base ++ names) := by
  induction names generalizing base with
  | nil =>
    rw [List.append_nil]
    rfl
  | cons name rest ih =>
    have hbase := h.directory (List.cons_ne_nil name rest)
    have hup : name ≠ ".." := by
      rintro rfl
      exact h.1 (by simp)
    rw [List.append_cons] at h ⊢
    rw [follow, hbase]
    dsimp only
    rw [if_neg hup]
    exact ih h

theorem follow_append (t : FileTree) (base parts rest : List String) :
    t.follow base (parts ++ rest) = (t.follow base parts >>= fun names => t.follow names rest) := by
  induction parts generalizing base with
  | nil => rfl
  | cons part parts ih =>
    rw [List.cons_append, follow, follow]
    split
    · rfl
    · rfl
    · exact ih _

/-! ## Sound trees -/

/-- Whether each entry of a tree has names of its own and stands in directories of the tree. -/
structure Sound (t : FileTree) : Prop where
  here : t.get? t.here = some .directory
  once : (t.entries.map Prod.fst).Nodup
  named : ∀ e ∈ t.entries, e.1 ≠ []
  leads : ∀ e ∈ t.entries, t.Leads e.1

theorem Sound.get?_of_mem (h : t.Sound) {e : List String × Entry} (he : e ∈ t.entries) :
    t.get? e.1 = some e.2 := by
  unfold FileTree.get?
  rw [if_neg (by simpa using h.named e he)]
  obtain ⟨before, after, hentries⟩ := List.append_of_mem he
  have honce := h.once
  rw [hentries, List.map_append, List.nodup_append] at honce
  rw [List.lookup_eq_some_iff]
  refine ⟨before, after, hentries, fun other hother => ?_⟩
  have hne := honce.2.2 other.1 (List.mem_map_of_mem hother) e.1 (by simp)
  exact bne_iff_ne.mpr (Ne.symm hne)

theorem Sound.leads_of_get? (h : t.Sound) {entry : Entry} (hg : t.get? names = some entry) :
    t.Leads names := by
  by_cases hne : names = []
  · subst hne
    exact .nil t
  · exact h.leads _ (mem_of_get? hne hg)

theorem leads_follow {base parts : List String} (hbase : t.Leads base)
    (hf : t.follow base parts = .ok names) : t.Leads names := by
  induction parts generalizing base with
  | nil =>
    cases hf
    exact hbase
  | cons part rest ih =>
    rw [follow] at hf
    split at hf
    · cases hf
    · cases hf
    · next hd =>
      refine ih ?_ hf
      split
      · exact hbase.of_prefix (List.dropLast_prefix base)
      · next hup => exact hbase.concat hd hup

/-- A path that can be followed leads through directories. -/
theorem Sound.leads_locate (h : t.Sound) (hl : t.locate p = .ok names) : t.Leads names := by
  refine leads_follow ?_ hl
  split
  · exact h.leads_of_get? h.here
  · exact .nil t

/-! ## New entries -/

/-- A new entry takes the place of no directory, so all ways stay. -/
theorem Sound.insert (h : t.Sound) (entry : Entry) (hl : t.Leads names)
    (hd : t.get? names ≠ some .directory) : (t.insert names entry).Sound := by
  have hkept (others : List String) (ho : t.get? others = some .directory) :
      (t.insert names entry).get? others = some .directory := by
    have hne : others ≠ names := by
      rintro rfl
      exact hd ho
    rw [get?_insert_of_ne t entry hne, ho]
  have hways (others : List String) (ho : t.Leads others) : (t.insert names entry).Leads others :=
    ⟨ho.1, fun n hn => hkept _ (ho.2 n hn)⟩
  have hmem (e : List String × Entry) (he : e ∈ t.entries.filter (·.1 ≠ names)) :
      e ∈ t.entries ∧ e.1 ≠ names := by simpa using he
  constructor
  · exact hkept _ h.here
  · refine List.nodup_cons.mpr ⟨?_, h.once.sublist (List.filter_sublist.map _)⟩
    intro hin
    obtain ⟨e, he, heq⟩ := List.mem_map.mp hin
    exact (hmem e he).2 heq
  · refine List.forall_mem_cons.mpr ⟨?_, fun e he => h.named e (hmem e he).1⟩
    rintro rfl
    exact hd rfl
  · exact List.forall_mem_cons.mpr ⟨hways _ hl, fun e he => hways _ (h.leads e (hmem e he).1)⟩

theorem Sound.makeDirectories (h : t.Sound) (hmade : t.makeDirectories p = .ok t') : t'.Sound := by
  refine makeDirectoriesFrom_induction (fun t₁ t₂ q _ hmade ht => ?_) hmade h
  obtain ⟨names, hl, hvacant, rfl⟩ := makeDirectory_eq_ok hmade
  exact ht.insert _ (ht.leads_locate hl) (by simp [hvacant])

theorem Sound.writeFile (h : t.Sound) {bytes : List UInt8}
    (hwritten : t.writeFile p bytes = .ok t') : t'.Sound := by
  obtain ⟨names, hl, hd, rfl⟩ := writeFile_eq_ok hwritten
  exact h.insert _ (h.leads_locate hl) hd

theorem Sound.writeText [TemplateEngine] (h : t.Sound) {text : String}
    (hwritten : writeText t p text = .ok t') : t'.Sound := by
  obtain ⟨-, made, hmade, hwritten⟩ := writeText_eq_ok hwritten
  exact (h.makeDirectories hmade).writeFile hwritten

theorem Sound.writeAll [TemplateEngine] (h : t.Sound) {texts : List (Path × String)}
    (hwritten : writeAll t texts = .ok t') : t'.Sound := by
  induction texts generalizing t with
  | nil =>
    cases hwritten
    exact h
  | cons q rest ih =>
    obtain ⟨next, hnext, hrest⟩ := writeAll_cons_eq_ok hwritten
    exact ih (h.writeText hnext) hrest

/-! ## Bare trees -/

theorem wayTo_concat (names : List String) (name : String) :
    wayTo (names ++ [name]) = wayTo names ++ [names ++ [name]] := by
  unfold wayTo
  rw [List.length_append, List.length_singleton, List.range_succ, List.map_append]
  congr 1
  · refine List.map_congr_left fun n hn => ?_
    rw [List.take_append_of_le_length (List.mem_range.mp hn)]
  · simp

theorem foldl_insertDirectory_here (t : FileTree) (here : List String) (ways : List (List String)) :
    ways.foldl insertDirectory { t with here } = { ways.foldl insertDirectory t with here } := by
  induction ways generalizing t with
  | nil => rfl
  | cons names rest ih =>
    have hstep : insertDirectory { t with here } names = { t.insertDirectory names with here } := by
      unfold insertDirectory
      split <;> split <;> first | rfl | contradiction
    rw [List.foldl_cons, List.foldl_cons, hstep, ih]

/-- Where no file stands in the way, directories are made down to some names. -/
theorem Sound.foldl_insertDirectory (h : t.Sound)
    (hfiles : ∀ dirs bytes, t.get? dirs ≠ some (.file bytes)) (hup : ".." ∉ names) :
    let made := (wayTo names).foldl insertDirectory t
    made.Sound ∧ made.get? names = some .directory ∧
      ∀ dirs bytes, made.get? dirs ≠ some (.file bytes) := by
  induction names using List.reverseRecOn with
  | nil => exact ⟨h, rfl, hfiles⟩
  | append_singleton names name ih =>
    obtain ⟨hmade, hd, hfree⟩ := ih fun hin => hup (List.mem_append_left _ hin)
    rw [wayTo_concat, List.foldl_append, List.foldl_cons, List.foldl_nil]
    generalize (wayTo names).foldl insertDirectory t = made at hmade hd hfree
    unfold insertDirectory
    split
    · next hnone =>
      rw [Option.isNone_iff_eq_none] at hnone
      have hname : name ≠ ".." := by
        rintro rfl
        exact hup (by simp)
      have hlead := (hmade.leads_of_get? hd).concat hd hname
      refine ⟨hmade.insert _ hlead (by simp [hnone]), get?_insert_self made _ (by simp), ?_⟩
      intro dirs bytes
      by_cases hsame : dirs = names ++ [name]
      · rw [hsame, get?_insert_self made _ (by simp)]
        simp
      · rw [get?_insert_of_ne made _ hsame]
        exact hfree dirs bytes
    · next hsome =>
      refine ⟨hmade, ?_, hfree⟩
      cases hg : made.get? (names ++ [name]) with
      | none => simp [hg] at hsome
      | some entry =>
        cases entry with
        | directory => rfl
        | file bytes => exact absurd hg (hfree _ bytes)

theorem sound_bare {here : List String} (hup : ".." ∉ here) : (bare here).Sound := by
  have hempty : (⟨[], []⟩ : FileTree).Sound := ⟨rfl, List.nodup_nil, nofun, nofun⟩
  have hfiles (dirs : List String) (bytes : List UInt8) :
      (⟨[], []⟩ : FileTree).get? dirs ≠ some (.file bytes) := by
    unfold FileTree.get?
    split <;> simp
  obtain ⟨hmade, hd, -⟩ := hempty.foldl_insertDirectory hfiles hup
  have hbare := foldl_insertDirectory_here ⟨[], []⟩ here (wayTo here)
  unfold bare
  rw [hbare]
  exact ⟨hd, hmade.once, hmade.named, hmade.leads⟩

end ModelScript.FileTree
