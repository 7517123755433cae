import KeyTransparency.Proofs.Tree.Layout
import KeyTransparency.Tree.Storage
import Mathlib.Data.Nat.BitIndices

/-!
# A tree is made up of complete subtrees

The complete subtrees that make up a range of leaves follow one another without a gap.  Their sizes
decrease and add up to the size of the range, so they are the powers of two of which this number
consists in binary.  The largest of them is the left half of the range unless it is the whole range,
and so the root of the range is folded from the roots of the subtrees.
-/

namespace KeyTransparency.Tree

/-- The root of the leaves of a range. -/
def LeafRange.rootIn (leaves : List Hash) (range : LeafRange) : Hash :=
  root (part leaves range.start (range.stop - range.start))

/-- Ranges of leaves that follow one another without a gap, from one position up to another. -/
inductive Consecutive : (start stop : Nat) → List LeafRange → Prop where
  | nil (position : Nat) : Consecutive position position []
  | cons {range : LeafRange} {stop : Nat} {rest : List LeafRange}
      (hsome : range.start < range.stop) (hrest : Consecutive range.stop stop rest) :
      Consecutive range.start stop (range :: rest)

variable {start size : Nat}

/-! ## The first subtree and the others -/

/-- The first subtree has at least half of the leaves, rounded up. -/
theorem first_subtree_le (h : size ≠ 0) :
    0 < 2 ^ size.log2 ∧ 2 ^ size.log2 ≤ size ∧ size < 2 * 2 ^ size.log2 := by
  have hhigh : size < 2 ^ (size.log2 + 1) := Nat.lt_log2_self
  rw [Nat.pow_succ, Nat.mul_comm] at hhigh
  exact ⟨Nat.two_pow_pos _, Nat.log2_self_le h, hhigh⟩

/-- What holds of no leaves, and of some leaves if it holds of those after the first subtree, holds
of all ranges. -/
theorem subtrees_induction {P : Nat → Nat → Prop} (none : ∀ start, P start 0)
    (some : ∀ start size, size ≠ 0 →
      P (start + 2 ^ size.log2) (size - 2 ^ size.log2) → P start size) (start size : Nat) :
    P start size := by
  induction size using Nat.strongRecOn generalizing start with
  | ind size ih =>
    by_cases hzero : size = 0
    · exact hzero ▸ none start
    · obtain ⟨hpos, hle, -⟩ := first_subtree_le hzero
      exact some start size hzero (ih _ (by omega) _)

theorem consecutive_completeSubtrees (start size : Nat) :
    Consecutive start (start + size) ((completeSubtrees start size).map Subtree.range) := by
  induction start, size using subtrees_induction with
  | none start =>
    rw [completeSubtrees_zero]
    exact .nil start
  | some start size hsome ih =>
    obtain ⟨hpos, hle, -⟩ := first_subtree_le hsome
    rw [Nat.add_assoc, Nat.add_sub_cancel' hle] at ih
    have hfirst : (Subtree.range ⟨size.log2, start⟩).start <
        (Subtree.range ⟨size.log2, start⟩).stop := Nat.lt_add_of_pos_right hpos
    rw [completeSubtrees_of_ne_zero start hsome, List.map_cons]
    exact .cons hfirst ih

/-! ## Sizes -/

theorem level_lt_of_mem {bound : Nat} (hbound : size < 2 ^ bound) {s : Subtree}
    (hs : s ∈ completeSubtrees start size) : s.level < bound := by
  induction start, size using subtrees_induction with
  | none start =>
    rw [completeSubtrees_zero] at hs
    cases hs
  | some start size hsome ih =>
    rw [completeSubtrees_of_ne_zero start hsome] at hs
    rcases List.mem_cons.mp hs with rfl | hrest
    · exact (Nat.log2_lt hsome).mpr hbound
    · exact ih (Nat.lt_of_le_of_lt (Nat.sub_le _ _) hbound) hrest

theorem pairwise_level_completeSubtrees (start size : Nat) :
    ((completeSubtrees start size).map Subtree.level).Pairwise (· > ·) := by
  induction start, size using subtrees_induction with
  | none start =>
    rw [completeSubtrees_zero]
    exact .nil
  | some start size hsome ih =>
    obtain ⟨-, -, hhalf⟩ := first_subtree_le hsome
    have hsmaller : size - 2 ^ size.log2 < 2 ^ size.log2 := by omega
    rw [completeSubtrees_of_ne_zero start hsome, List.map_cons]
    refine .cons ?_ ih
    intro level hlevel
    obtain ⟨s, hs, rfl⟩ := List.mem_map.mp hlevel
    exact level_lt_of_mem hsmaller hs

theorem sum_completeSubtrees (start size : Nat) :
    (((completeSubtrees start size).map Subtree.level).map (2 ^ ·)).sum = size := by
  induction start, size using subtrees_induction with
  | none start =>
    rw [completeSubtrees_zero]
    rfl
  | some start size hsome ih =>
    obtain ⟨-, hle, -⟩ := first_subtree_le hsome
    rw [completeSubtrees_of_ne_zero start hsome, List.map_cons, List.map_cons, List.sum_cons, ih]
    exact Nat.add_sub_cancel' hle

/-- The levels of the subtrees are the places of the one bits in the number of leaves, the highest
first. -/
theorem map_level_completeSubtrees (start size : Nat) :
    (completeSubtrees start size).map Subtree.level = size.bitIndices.reverse := by
  have hincreasing : ((completeSubtrees start size).map Subtree.level).reverse.SortedLT :=
    (List.pairwise_reverse.mpr (pairwise_level_completeSubtrees start size)).sortedLT
  have hsum : (((completeSubtrees start size).map Subtree.level).reverse.map (2 ^ ·)).sum =
      size := by
    rw [List.map_reverse, List.sum_reverse, sum_completeSubtrees]
  have hbits := Nat.bitIndices_sum_map_two_pow hincreasing
  rw [hsum] at hbits
  rw [hbits, List.reverse_reverse]

/-! ## Places -/

theorem bounds_of_mem_completeSubtrees {s : Subtree} (hs : s ∈ completeSubtrees start size) :
    start ≤ s.start ∧ s.start + 2 ^ s.level ≤ start + size := by
  induction start, size using subtrees_induction with
  | none start =>
    rw [completeSubtrees_zero] at hs
    cases hs
  | some start size hsome ih =>
    obtain ⟨hpos, hle, -⟩ := first_subtree_le hsome
    rw [completeSubtrees_of_ne_zero start hsome] at hs
    rcases List.mem_cons.mp hs with rfl | hrest
    · exact ⟨Nat.le_refl _, Nat.add_le_add_left hle _⟩
    · obtain ⟨hlow, hhigh⟩ := ih hrest
      omega

/-- The complete subtrees of an aligned range begin at multiples of their sizes. -/
theorem Aligned.dvd_of_mem (h : Aligned start size) {s : Subtree}
    (hs : s ∈ completeSubtrees start size) : 2 ^ s.level ∣ s.start := by
  induction start, size using subtrees_induction with
  | none start =>
    rw [completeSubtrees_zero] at hs
    cases hs
  | some start size hsome ih =>
    obtain ⟨-, hle, hhalf⟩ := first_subtree_le hsome
    have hdvd := h.dvd_of_le hle
    rw [completeSubtrees_of_ne_zero start hsome] at hs
    rcases List.mem_cons.mp hs with rfl | hrest
    · exact hdvd
    · exact ih ⟨size.log2, by omega, Nat.dvd_add hdvd (Nat.dvd_refl _)⟩ hrest

/-! ## Roots -/

theorem foldSubtrees_cons (hash : Hash) {rest : List Hash} (h : rest ≠ []) :
    foldSubtrees (hash :: rest) = nodeHash hash (foldSubtrees rest) := by
  cases rest with
  | nil => exact absurd rfl h
  | cons second rest =>
    rw [foldSubtrees]
    exact h

/-- The root of a range of leaves is folded from the roots of its complete subtrees. -/
theorem foldSubtrees_completeSubtrees {leaves : List Hash} (hend : start + size ≤ leaves.length) :
    foldSubtrees (((completeSubtrees start size).map Subtree.range).map (LeafRange.rootIn leaves)) =
      root (part leaves start size) := by
  induction start, size using subtrees_induction with
  | none start =>
    rw [completeSubtrees_zero, part, List.take_zero, root, ofLeaves]
    rfl
  | some start size hsome ih =>
    obtain ⟨hpos, hle, -⟩ := first_subtree_le hsome
    have hfirst : LeafRange.rootIn leaves (Subtree.range ⟨size.log2, start⟩) =
        root (part leaves start (2 ^ size.log2)) := by
      rw [LeafRange.rootIn, Subtree.range, Nat.add_sub_cancel_left]
    rw [completeSubtrees_of_ne_zero start hsome, List.map_cons, List.map_cons, hfirst]
    by_cases hwhole : 2 ^ size.log2 = size
    · -- the range is one subtree
      rw [hwhole, Nat.sub_self, completeSubtrees_zero]
      rfl
    · have hrest : size - 2 ^ size.log2 ≠ 0 := by omega
      have hne : ((completeSubtrees (start + 2 ^ size.log2) (size - 2 ^ size.log2)).map
          Subtree.range).map (LeafRange.rootIn leaves) ≠ [] := by
        rw [completeSubtrees_of_ne_zero _ hrest]
        exact List.cons_ne_nil _ _
      rw [foldSubtrees_cons _ hne, ih (by omega), root_part hend (by omega),
        leftSize_eq_two_pow_log2 (Nat.lt_of_le_of_ne hle hwhole)]

end KeyTransparency.Tree
