import KeyTransparency.Proofs.Tree.Subtrees
import KeyTransparency.Proofs.Words.Tree
import KeyTransparency.Words.Subtrees

/-!
# Finding complete subtrees in words

Each subtree has at least half of the leaves that are left, so as many rounds as a word has bits
find all of them.  Only in a tree of the greatest size that is a word there is no room for the one
leaf more by which the first subtree is found.
-/

namespace KeyTransparency

/-- The leaves from the first position up to but without the second. -/
def Words.leafRange (bounds : UInt64 × UInt64) : Tree.LeafRange := ⟨bounds.1.toNat, bounds.2.toNat⟩

namespace Words

variable {size : UInt64}

/-- The step finds the first subtree of the leaves that are left and goes on behind it. -/
theorem subtreesFrom?_succ {lo : UInt64} (hlt : lo.toNat < size.toNat)
    (hword : size.toNat - lo.toNat + 1 < UInt64.size) (rounds : Nat) :
    ∃ hi, hi.toNat = lo.toNat + 2 ^ (size.toNat - lo.toNat).log2 ∧
      subtreesFrom? size (rounds + 1) lo =
        (subtreesFrom? size rounds hi).map ((lo, hi) :: ·) := by
  obtain ⟨rest, hrest, hrestNat⟩ := exists_sub? hlt.le
  obtain ⟨more, hmore, hmoreNat⟩ := @exists_add? rest 1 (hrestNat ▸ hword)
  have hmoreNat : more.toNat = rest.toNat + 1 := hmoreNat
  obtain ⟨width, hwidth, hwidthNat⟩ := @exists_leftSize? more (by omega)
  have hwidthNat : width.toNat = 2 ^ (size.toNat - lo.toNat).log2 := by
    rw [hwidthNat, hmoreNat, hrestNat]
    rfl
  obtain ⟨-, hfits, -⟩ := Tree.first_subtree_le (Nat.sub_ne_zero_of_lt hlt)
  have hbound : size.toNat < UInt64.size := size.toNat_lt
  obtain ⟨hi, hhi, hhiNat⟩ := @exists_add? lo width (by rw [hwidthNat]; omega)
  refine ⟨hi, hwidthNat ▸ hhiNat, ?_⟩
  rw [subtreesFrom?, if_pos (UInt64.lt_iff_toNat_lt.mpr hlt), hrest]
  simp only [Option.bind_eq_bind, Option.bind_some, hmore, hwidth, hhi]
  exact (Option.map_eq_bind).symm

theorem subtreesFrom?_of_le {lo : UInt64} (h : size.toNat ≤ lo.toNat) (rounds : Nat) :
    subtreesFrom? size rounds lo = some [] := by
  have hend : ¬lo < size := fun hlt => (UInt64.lt_iff_toNat_lt.mp hlt).not_ge h
  rw [subtreesFrom?.eq_def, if_neg hend]

/-- The subtrees that are found in words are those that are found in numbers. -/
theorem subtreesFrom?_eq {rounds : Nat} {lo : UInt64}
    (hrounds : size.toNat - lo.toNat < 2 ^ rounds)
    (hword : size.toNat - lo.toNat + 1 < UInt64.size) :
    (subtreesFrom? size rounds lo).map (List.map leafRange) =
      some ((Tree.completeSubtrees lo.toNat (size.toNat - lo.toNat)).map Tree.Subtree.range) := by
  induction rounds generalizing lo with
  | zero =>
    have hnone : size.toNat - lo.toNat = 0 := Nat.lt_one_iff.mp hrounds
    rw [subtreesFrom?_of_le (Nat.sub_eq_zero_iff_le.mp hnone), hnone, Tree.completeSubtrees_zero]
    rfl
  | succ rounds ih =>
    by_cases hsome : lo.toNat < size.toNat
    · obtain ⟨hi, hhi, hstep⟩ := subtreesFrom?_succ hsome hword rounds
      have hne : size.toNat - lo.toNat ≠ 0 := Nat.sub_ne_zero_of_lt hsome
      obtain ⟨hpos, hfits, hhalf⟩ := Tree.first_subtree_le hne
      have hlater : size.toNat - hi.toNat =
          size.toNat - lo.toNat - 2 ^ (size.toNat - lo.toNat).log2 := by
        rw [hhi, Nat.sub_add_eq]
      have hsmaller : size.toNat - hi.toNat < 2 ^ rounds := by
        rw [Nat.pow_succ] at hrounds
        omega
      have hfirst : leafRange (lo, hi) =
          Tree.Subtree.range ⟨(size.toNat - lo.toNat).log2, lo.toNat⟩ := by
        rw [leafRange, Tree.Subtree.range, hhi]
      obtain ⟨ranges, hranges, hrangesNat⟩ :=
        Option.map_eq_some_iff.mp (ih hsmaller (by omega))
      rw [hstep, hranges, Tree.completeSubtrees_of_ne_zero _ hne, ← hlater, ← hhi, List.map_cons,
        ← hrangesNat, ← hfirst]
      rfl
    · have hle : size.toNat ≤ lo.toNat := Nat.le_of_not_lt hsome
      rw [subtreesFrom?_of_le hle, Nat.sub_eq_zero_of_le hle, Tree.completeSubtrees_zero]
      rfl

theorem completeSubtrees?_eq (h : size.toNat + 1 < UInt64.size) :
    (completeSubtrees? size).map (List.map leafRange) =
      some ((Tree.completeSubtrees 0 size.toNat).map Tree.Subtree.range) :=
  subtreesFrom?_eq size.toNat_lt h

/-- The one leaf more does not fit into a word beside the greatest number of leaves. -/
example : completeSubtrees? 0xffffffffffffffff = none := by decide

end Words

namespace Tree

/-- The complete subtrees of a tree are found in words, up to the size before the greatest one.
They follow one another from the first leaf to the last, their sizes are the powers of two of which
the number of leaves consists in binary, they decrease, each subtree begins at a multiple of its
size, and the root of the tree is folded from their roots. -/
theorem completeSubtrees?_make_up_tree {size : UInt64} (h : size.toNat < 2 ^ 64 - 1) :
    ∃ subtrees ranges, Words.completeSubtrees? size = some subtrees ∧
      ranges = subtrees.map Words.leafRange ∧
      Consecutive 0 size.toNat ranges ∧
      ranges.map (fun range => range.stop - range.start) =
        size.toNat.bitIndices.reverse.map (2 ^ ·) ∧
      (ranges.map fun range => range.stop - range.start).Pairwise (· > ·) ∧
      (∀ range ∈ ranges, range.stop - range.start ∣ range.start) ∧
      ∀ leaves : List Hash, leaves.length = size.toNat →
        foldSubtrees (ranges.map (LeafRange.rootIn leaves)) = root leaves := by
  have hword : size.toNat + 1 < UInt64.size := by
    have hsize : UInt64.size = 2 ^ 64 := rfl
    omega
  obtain ⟨subtrees, hsubtrees, hranges⟩ :=
    Option.map_eq_some_iff.mp (Words.completeSubtrees?_eq hword)
  have hconsecutive := consecutive_completeSubtrees 0 size.toNat
  have hlevels := map_level_completeSubtrees 0 size.toNat
  have hdecreasing := pairwise_level_completeSubtrees 0 size.toNat
  have hsizes : (subtrees.map Words.leafRange).map (fun range => range.stop - range.start) =
      ((completeSubtrees 0 size.toNat).map Subtree.level).map (2 ^ ·) := by
    rw [hranges, List.map_map, List.map_map]
    refine List.map_congr_left ?_
    intro s _
    exact Nat.add_sub_cancel_left _ _
  rw [Nat.zero_add, ← hranges] at hconsecutive
  refine ⟨subtrees, _, hsubtrees, rfl, hconsecutive, hlevels ▸ hsizes, ?_, ?_, ?_⟩
  · rw [hsizes, List.pairwise_map]
    exact hdecreasing.imp fun hlevel => Nat.pow_lt_pow_right (by decide) hlevel
  · intro range hrange
    rw [hranges] at hrange
    obtain ⟨s, hs, rfl⟩ := List.mem_map.mp hrange
    have hdvd := (Aligned.zero size.toNat).dvd_of_mem hs
    rwa [← Nat.add_sub_cancel_left s.start (2 ^ s.level)] at hdvd
  · intro leaves hlength
    have hfold := @foldSubtrees_completeSubtrees 0 size.toNat leaves (by omega)
    rwa [← hranges, part_zero, ← hlength, List.take_length] at hfold

/-- A tree of thirteen leaves is made up of subtrees of eight, four and one. -/
theorem completeSubtrees?_make_up_thirteen :
    (13 : UInt64).toNat < 2 ^ 64 - 1 ∧
      Words.completeSubtrees? 13 = some [(0, 8), (8, 12), (12, 13)] ∧
      ∀ leaves : List Hash, leaves.length = 13 →
        foldSubtrees ([⟨0, 8⟩, ⟨8, 12⟩, ⟨12, 13⟩].map (LeafRange.rootIn leaves)) = root leaves := by
  have hsize : (13 : UInt64).toNat < 2 ^ 64 - 1 := by decide
  have hfound : Words.completeSubtrees? 13 = some [(0, 8), (8, 12), (12, 13)] := by decide
  obtain ⟨subtrees, _, hsubtrees, rfl, -, -, -, -, hroot⟩ := completeSubtrees?_make_up_tree hsize
  obtain rfl := Option.some.inj (hfound.symm.trans hsubtrees)
  exact ⟨hsize, hfound, hroot⟩

end Tree

end KeyTransparency
