import Mathlib.Data.String.Basic
import ModelScript.Proofs.Files.Contents
import ModelScript.Proofs.Files.Reading
import ModelScript.Proofs.Files.Sound

/-!
# What is found below a directory

In a sound tree everything below a directory is found by its name alone:

    q ∈ t.entriesBelow p ending ↔
      q.IsBelow p ∧ ending.toList <:+ q.name.toList ∧ ∃ e, t.entry q = .ok e

(`Sound.mem_entriesBelow_iff`).  It is found once, and in the order of the parts of the paths
(`Sound.pairwise_entriesBelow`).
-/

namespace ModelScript

/-! ## Paths below a path -/

namespace Path

/-- Whether a path goes on behind another one, without going up. -/
def IsBelow (q p : Path) : Prop := ∃ names, names ≠ [] ∧ ".." ∉ names ∧ q = p.join ⟨0, names⟩

theorem name_join {names : List String} (hne : names ≠ []) (p : Path) :
    (p.join ⟨0, names⟩).name = names.getLast?.getD "" := by
  unfold Path.name Path.join
  rw [if_pos rfl, List.getLast?_append_of_ne_nil _ hne]

theorem placeFrom_down {names : List String} (hup : ".." ∉ names) (base : List String) :
    placeFrom base names = base ++ names := by
  induction names generalizing base with
  | nil => exact (List.append_nil base).symm
  | cons name rest ih =>
    rw [List.mem_cons, not_or] at hup
    rw [placeFrom, if_neg (Ne.symm hup.1), ih hup.2, List.append_assoc, List.singleton_append]

end Path

namespace FileTree

variable {t : FileTree} {p q : Path} {ending : String}

/-! ## Entries below a directory -/

theorem locate_join (t : FileTree) (p : Path) (names : List String) :
    t.locate (p.join ⟨0, names⟩) = (t.locate p >>= fun base => t.follow base names) := by
  unfold locate Path.join
  rw [if_pos rfl]
  exact t.follow_append _ _ _

/-- A way goes on behind a directory only. -/
theorem follow_ne_nil {base names others : List String} (hne : names ≠ [])
    (h : t.follow base names = .ok others) : t.get? base = some .directory := by
  cases names with
  | nil => exact absurd rfl hne
  | cons name rest =>
    rw [follow] at h
    split at h
    · cases h
    · cases h
    · next hd => exact hd

/-- Below a directory, the entries of the right names are found. -/
theorem Sound.mem_entriesBelow_iff (h : t.Sound) : q ∈ t.entriesBelow p ending ↔
    q.IsBelow p ∧ ending.toList <:+ q.name.toList ∧ ∃ e, t.entry q = .ok e := by
  rw [FileTree.mem_entriesBelow_iff]
  constructor
  · rintro ⟨base, hbase, -, ⟨names, e⟩, he, ⟨rest, rfl⟩, hlonger, hending, rfl⟩
    have hrest : rest ≠ [] := by
      rintro rfl
      simp at hlonger
    have hleads : t.Leads (base ++ rest) := h.leads _ he
    have hjoin : ({ p with parts := p.parts ++ (base ++ rest).drop base.length } : Path)
        = p.join ⟨0, rest⟩ := by
      rw [List.drop_left]
      rfl
    dsimp only at hending ⊢
    rw [List.getLast?_append_of_ne_nil _ hrest] at hending
    rw [hjoin]
    refine ⟨⟨rest, hrest, fun hup => hleads.1 (List.mem_append_right base hup), rfl⟩, ?_, e, ?_⟩
    · rwa [Path.name_join hrest]
    · rw [entry_eq_ok_iff, locate_join, hbase]
      exact ⟨base ++ rest, hleads.follow_eq, h.get?_of_mem he⟩
  · rintro ⟨⟨names, hne, hup, rfl⟩, hending, e, he⟩
    obtain ⟨full, hlocate, hget⟩ := entry_eq_ok_iff.mp he
    rw [locate_join] at hlocate
    cases hbase : t.locate p with
    | error problem =>
      rw [hbase] at hlocate
      cases hlocate
    | ok base =>
      rw [hbase] at hlocate
      obtain rfl : base ++ names = full :=
        (Path.placeFrom_down hup base).symm.trans (follow_eq_ok hlocate)
      have hd : t.isDirectory p = true :=
        isDirectory_iff.mpr (entry_eq_ok_iff.mpr ⟨base, hbase, follow_ne_nil hne hlocate⟩)
      have hlast := List.getLast?_append_of_ne_nil base hne
      rw [Path.name_join hne, ← hlast] at hending
      refine ⟨base, rfl, hd, _, mem_of_get? (by simp [hne]) hget, ⟨names, rfl⟩, ?_, hending, ?_⟩
      · rw [List.length_append]
        have := List.length_pos_of_ne_nil hne
        omega
      · rw [List.drop_left]
        rfl

/-! ## The order of paths -/

theorem inOrder_iff (as bs : List String) : inOrder as bs = true ↔ as ≤ bs := by
  rw [← not_lt]
  induction as generalizing bs with
  | nil => simp [inOrder]
  | cons a as ih =>
    cases bs with
    | nil => simp [inOrder]
    | cons b bs =>
      rw [inOrder, List.cons_lt_cons_iff]
      by_cases hab : a = b
      · simp [hab, ih]
      · simp only [hab, Ne.symm hab, if_false, decide_eq_true_eq, false_and, or_false, not_lt]

theorem before_iff (p q : Path) : before p q = true ↔ p.parts ≤ q.parts := inOrder_iff _ _

theorem pairwise_mergeSort_before (ps : List Path) :
    (ps.mergeSort before).Pairwise (fun q r => q.parts ≤ r.parts) := by
  refine (List.pairwise_mergeSort ?_ ?_ ps).imp fun {q r} => (before_iff q r).mp
  · intro q r s hqr hrs
    rw [before_iff] at hqr hrs ⊢
    exact hqr.trans hrs
  · intro q r
    rw [Bool.or_eq_true, before_iff, before_iff]
    exact le_total _ _

/-- What is found below a directory stands in the strict order of the parts of its paths. -/
theorem Sound.pairwise_entriesBelow (h : t.Sound) (p : Path) (ending : String) :
    (t.entriesBelow p ending).Pairwise (fun q r => q.parts < r.parts) := by
  unfold entriesBelow
  split
  · next base _ _ =>
    dsimp only
    refine List.Pairwise.imp₂ (S := fun q r => q.parts ≠ r.parts) (fun q r hle hne => ?_)
      (pairwise_mergeSort_before _) ?_
    · exact lt_of_le_of_ne hle hne
    · rw [List.Perm.pairwise_iff Ne.symm (List.mergeSort_perm _ _)]
      -- no names are listed twice, and behind the same base they differ further on
      refine List.Pairwise.filterMap _ ?_ (List.pairwise_map.mp h.once)
      rintro ⟨names, _⟩ ⟨others, _⟩ hne q hq r hr hparts
      dsimp only at hq hr
      split at hq
      · split at hr
        · next hnames hothers =>
          cases hq
          cases hr
          simp only [Bool.and_eq_true, List.isPrefixOf_iff_prefix] at hnames hothers
          obtain ⟨rest, rfl⟩ := hnames.1.1
          obtain ⟨others, rfl⟩ := hothers.1.1
          simp only [List.drop_left, List.append_cancel_left_eq] at hparts
          exact hne (by rw [hparts])
        · cases hr
      · cases hq
  · exact List.Pairwise.nil

end FileTree

end ModelScript
