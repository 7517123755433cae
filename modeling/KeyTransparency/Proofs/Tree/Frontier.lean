import KeyTransparency.Proofs.Tree.Layout
import KeyTransparency.Tree.Frontier
import Mathlib.Data.List.TakeWhile

/-!
# Where a frontier lies

The frontier of a leaf increases and lies to its right.  The first leaf of the next subtree of some
size is the next multiple of this size, and at the level that the next leaf begins a subtree of, it
is the next leaf.  So the frontier begins with the next leaf, if the tree has it.
-/

namespace KeyTransparency.Tree

variable {n level size : Nat}

theorem nextSubtreeStart_eq (n level : Nat) :
    nextSubtreeStart n level = (n / 2 ^ level + 1) * 2 ^ level := by
  rw [nextSubtreeStart, Nat.shiftLeft_eq, Nat.shiftRight_eq_div_pow]

theorem lt_nextSubtreeStart (n level : Nat) : n < nextSubtreeStart n level := by
  rw [nextSubtreeStart_eq]
  exact Nat.lt_mul_of_div_lt (Nat.lt_succ_self _) (Nat.two_pow_pos level)

theorem two_pow_dvd_nextSubtreeStart (n level : Nat) : 2 ^ level ∣ nextSubtreeStart n level := by
  rw [nextSubtreeStart_eq]
  exact Nat.dvd_mul_left _ _

theorem nextSubtreeStart_le {start : Nat} (hdvd : 2 ^ level ∣ start) (h : n < start) :
    nextSubtreeStart n level ≤ start := by
  obtain ⟨count, rfl⟩ := hdvd
  rw [nextSubtreeStart_eq, Nat.mul_comm (2 ^ level)]
  apply Nat.mul_le_mul_right
  rw [Nat.mul_comm] at h
  exact Nat.div_lt_of_lt_mul (Nat.mul_comm _ _ ▸ h)

/-- A subtree to the right is not the beginning of a larger one. -/
theorem not_two_pow_succ_dvd (h : n.testBit level = false) :
    ¬2 ^ (level + 1) ∣ nextSubtreeStart n level := by
  have heven : n / 2 ^ level % 2 = 0 := by
    simpa [Nat.testBit, Nat.shiftRight_eq_div_pow] using h
  rw [nextSubtreeStart_eq, Nat.pow_succ, Nat.mul_comm (2 ^ level),
    Nat.mul_dvd_mul_iff_right (Nat.two_pow_pos level)]
  omega

theorem nextSubtreeStart_lt {upper : Nat} (h : n.testBit level = false) (hlevel : level < upper) :
    nextSubtreeStart n level < nextSubtreeStart n upper := by
  have hdvd (lower : Nat) (hle : lower ≤ upper) : 2 ^ lower ∣ nextSubtreeStart n upper :=
    Nat.dvd_trans (Nat.pow_dvd_pow 2 hle) (two_pow_dvd_nextSubtreeStart n upper)
  apply Nat.lt_of_le_of_ne
  · exact nextSubtreeStart_le (hdvd level (Nat.le_of_lt hlevel)) (lt_nextSubtreeStart n upper)
  · intro heq
    exact not_two_pow_succ_dvd h (heq ▸ hdvd (level + 1) hlevel)

/-- The subtree that the next leaf begins is the next subtree of its size. -/
theorem nextSubtreeStart_trailingOnes (n : Nat) :
    n.testBit (trailingOnes n) = false ∧ nextSubtreeStart n (trailingOnes n) = n + 1 := by
  have hdvd : 2 ^ trailingOnes n ∣ n + 1 := two_pow_dvd_succ_iff.mpr (Nat.le_refl _)
  have hstart : nextSubtreeStart n (trailingOnes n) = n + 1 :=
    Nat.le_antisymm (nextSubtreeStart_le hdvd (Nat.lt_succ_self n)) (lt_nextSubtreeStart n _)
  refine ⟨?_, hstart⟩
  -- if the bit were set, the next leaf would begin a subtree of twice the size
  by_contra hbit
  have hodd : n / 2 ^ trailingOnes n % 2 = 1 := by
    simpa [Nat.testBit, Nat.shiftRight_eq_div_pow] using hbit
  have hlarger : 2 ^ (trailingOnes n + 1) ∣ n + 1 := by
    rw [← hstart, nextSubtreeStart_eq, Nat.pow_succ, Nat.mul_comm (2 ^ trailingOnes n),
      Nat.mul_dvd_mul_iff_right (Nat.two_pow_pos _)]
    omega
  exact Nat.not_succ_le_self _ (two_pow_dvd_succ_iff.mp hlarger)

/-! ## The frontier as a list -/

/-- The beginnings of all subtrees to the right, in a tree that has them all. -/
def subtreeStarts (n : Nat) : List Nat :=
  ((List.range positionBits).filter fun level => !n.testBit level).map (nextSubtreeStart n)

theorem frontier_eq (n size : Nat) : frontier n size = (subtreeStarts n).takeWhile (· < size) := rfl

theorem pairwise_subtreeStarts (n : Nat) : (subtreeStarts n).Pairwise (· < ·) := by
  rw [subtreeStarts, List.pairwise_map, List.pairwise_filter]
  refine List.pairwise_lt_range.imp ?_
  intro level upper hlevel hbit _
  exact nextSubtreeStart_lt (by simpa using hbit) hlevel

theorem mem_takeWhile_of_lt {positions : List Nat} (hsorted : positions.Pairwise (· < ·))
    {position : Nat} (hmem : position ∈ positions) (hlt : position < size) :
    position ∈ positions.takeWhile (· < size) := by
  induction positions with
  | nil => cases hmem
  | cons first rest ih =>
    obtain ⟨hfirst, hrest⟩ := List.pairwise_cons.mp hsorted
    rcases List.mem_cons.mp hmem with rfl | hlater
    · simp [hlt]
    · have hbefore : first < size := Nat.lt_trans (hfirst position hlater) hlt
      simp [hbefore, ih hrest hlater]

theorem mem_frontier_iff {position : Nat} :
    position ∈ frontier n size ↔ position ∈ subtreeStarts n ∧ position < size := by
  rw [frontier_eq]
  constructor
  · intro h
    exact ⟨(List.takeWhile_sublist _).mem h, by simpa using List.mem_takeWhile_imp h⟩
  · rintro ⟨hmem, hlt⟩
    exact mem_takeWhile_of_lt (pairwise_subtreeStarts n) hmem hlt

/-- The frontier contains the next leaf, if the tree has it. -/
theorem succ_mem_frontier (hnext : n + 1 < size) (hsize : size ≤ 2 ^ positionBits) :
    n + 1 ∈ frontier n size := by
  obtain ⟨hbit, hstart⟩ := nextSubtreeStart_trailingOnes n
  have hle : 2 ^ trailingOnes n ≤ n + 1 :=
    Nat.le_of_dvd (Nat.succ_pos n) (two_pow_dvd_succ_iff.mpr (Nat.le_refl _))
  have hlevel : trailingOnes n < positionBits :=
    (Nat.pow_lt_pow_iff_right Nat.one_lt_two).mp (Nat.lt_of_le_of_lt hle (by omega))
  refine mem_frontier_iff.mpr ⟨List.mem_map.mpr ⟨trailingOnes n, ?_, hstart⟩, hnext⟩
  exact List.mem_filter.mpr ⟨List.mem_range.mpr hlevel, by rw [hbit]; rfl⟩

theorem pairwise_monitoredPositions (n size : Nat) :
    (monitoredPositions n size).Pairwise (· < ·) := by
  refine List.pairwise_cons.mpr ⟨?_, (pairwise_subtreeStarts n).sublist (List.takeWhile_sublist _)⟩
  intro position hposition
  obtain ⟨level, -, rfl⟩ := List.mem_map.mp (mem_frontier_iff.mp hposition).1
  exact lt_nextSubtreeStart n level

theorem lt_of_mem_monitoredPositions (hentry : n < size) {position : Nat}
    (hposition : position ∈ monitoredPositions n size) : position < size := by
  rcases List.mem_cons.mp hposition with rfl | hfrontier
  · exact hentry
  · exact (mem_frontier_iff.mp hfrontier).2

end KeyTransparency.Tree
