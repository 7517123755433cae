import KeyTransparency.Proofs.Tree.Layout
import Mathlib.Algebra.BigOperators.Group.Finset.Basic
import Mathlib.Algebra.BigOperators.Intervals
import Mathlib.Data.Set.Function

/-!
# Every stored hash has a place of its own

The hashes that a leaf adds are stored from the place of its own hash on, and the next leaf's hash
comes right after them.  So the places of different leaves do not meet and leave no gap, and each
place belongs to one subtree: the one of its level among those that end with its leaf.
-/

namespace KeyTransparency.Tree

/-! ## The last leaf of a subtree -/

/-- The last leaf of the `n`th subtree with `2 ^ level` leaves. -/
def lastLeaf (level n : Nat) : Nat := (n + 1) * 2 ^ level - 1

theorem lastLeaf_add_one (level n : Nat) : lastLeaf level n + 1 = (n + 1) * 2 ^ level :=
  Nat.sub_add_cancel (Nat.mul_pos (Nat.succ_pos n) (Nat.two_pow_pos level))

theorem storedIndex_eq (level n : Nat) :
    storedIndex level n = hashesBefore (lastLeaf level n) + level := rfl

/-- A subtree is one of those that its last leaf completes. -/
theorem level_le_trailingOnes_lastLeaf (level n : Nat) : level ≤ trailingOnes (lastLeaf level n) := by
  rw [← two_pow_dvd_succ_iff, lastLeaf_add_one]
  exact Nat.dvd_mul_left _ _

/-- The subtree of a level that a leaf completes. -/
theorem lastLeaf_shiftRight {level n : Nat} (h : level ≤ trailingOnes n) :
    lastLeaf level (n >>> level) = n := by
  obtain ⟨q, hq⟩ := two_pow_dvd_succ_iff.mpr h
  have hpos : 0 < 2 ^ level := Nat.two_pow_pos level
  obtain ⟨r, rfl⟩ : ∃ r, q = r + 1 := ⟨q - 1, by cases q <;> simp_all⟩
  have hshift : n >>> level = r := by
    rw [Nat.shiftRight_eq_div_pow]
    refine Nat.div_eq_of_lt_le ?_ ?_
    · rw [Nat.mul_succ, Nat.mul_comm] at hq
      omega
    · rw [Nat.mul_comm (r + 1)]
      omega
  rw [lastLeaf, hshift, Nat.mul_comm, ← hq, Nat.add_sub_cancel]

/-! ## The places of a leaf -/

theorem hashesBefore_mono {m n : Nat} (h : m ≤ n) : hashesBefore m ≤ hashesBefore n := by
  induction h with
  | refl => exact Nat.le_refl _
  | step h ih =>
    rw [hashesBefore_succ]
    omega

/-- The places of an earlier leaf come before those of a later one. -/
theorem place_lt_of_lt {m n level : Nat} (hlevel : level ≤ trailingOnes m) (h : m < n) :
    hashesBefore m + level < hashesBefore n := by
  have hnext : hashesBefore (m + 1) ≤ hashesBefore n := hashesBefore_mono h
  rw [hashesBefore_succ] at hnext
  omega

/-- A place belongs to one leaf and to one of the subtrees that the leaf completes. -/
theorem place_inj {m n level level' : Nat} (hlevel : level ≤ trailingOnes m)
    (hlevel' : level' ≤ trailingOnes n)
    (h : hashesBefore m + level = hashesBefore n + level') : m = n ∧ level = level' := by
  rcases Nat.lt_trichotomy m n with hlt | rfl | hgt
  · have := place_lt_of_lt hlevel hlt
    omega
  · exact ⟨rfl, Nat.add_left_cancel h⟩
  · have := place_lt_of_lt hlevel' hgt
    omega

/-- No place is left out. -/
theorem exists_place {size place : Nat} (h : place < hashesBefore size) :
    ∃ m level, m < size ∧ level ≤ trailingOnes m ∧ hashesBefore m + level = place := by
  induction size with
  | zero =>
    rw [hashesBefore_zero] at h
    exact absurd h (Nat.not_lt_zero _)
  | succ size ih =>
    by_cases hbefore : place < hashesBefore size
    · obtain ⟨m, level, hm, hlevel, hplace⟩ := ih hbefore
      exact ⟨m, level, Nat.lt_succ_of_lt hm, hlevel, hplace⟩
    · rw [hashesBefore_succ] at h
      exact ⟨size, place - hashesBefore size, Nat.lt_succ_self size, by omega, by omega⟩

/-! ## The places of subtrees -/

theorem lastLeaf_lt {size level n : Nat} (h : (n + 1) * 2 ^ level ≤ size) :
    lastLeaf level n < size := by
  rw [← lastLeaf_add_one] at h
  exact h

theorem storedIndex_lt {size level n : Nat} (h : (n + 1) * 2 ^ level ≤ size) :
    storedIndex level n < storedCount size := by
  rw [storedIndex_eq, storedCount_eq_hashesBefore]
  exact place_lt_of_lt (level_le_trailingOnes_lastLeaf level n) (lastLeaf_lt h)

theorem storedIndex_inj {level n level' n' : Nat} (h : storedIndex level n = storedIndex level' n') :
    level = level' ∧ n = n' := by
  obtain ⟨hlast, rfl⟩ := place_inj (level_le_trailingOnes_lastLeaf level n)
    (level_le_trailingOnes_lastLeaf level' n') h
  refine ⟨rfl, ?_⟩
  have hends : (n + 1) * 2 ^ level = (n' + 1) * 2 ^ level := by
    rw [← lastLeaf_add_one, ← lastLeaf_add_one, hlast]
  exact Nat.succ.inj (Nat.mul_right_cancel (Nat.two_pow_pos level) hends)

theorem exists_storedIndex {size place : Nat} (h : place < storedCount size) :
    ∃ level n, (n + 1) * 2 ^ level ≤ size ∧ storedIndex level n = place := by
  rw [storedCount_eq_hashesBefore] at h
  obtain ⟨m, level, hm, hlevel, hplace⟩ := exists_place h
  have hlast := lastLeaf_shiftRight hlevel
  refine ⟨level, m >>> level, ?_, ?_⟩
  · rw [← lastLeaf_add_one, hlast]
    exact hm
  · rw [storedIndex_eq, hlast, hplace]

/-- The subtrees that a leaf completes are stored from its own hash on, in the order of their
levels. -/
theorem storedIndex_shiftRight {level n : Nat} (h : level ≤ trailingOnes n) :
    storedIndex level (n >>> level) = storedIndex 0 n + level := by
  have hleaf : lastLeaf 0 n = n := by
    rw [lastLeaf, Nat.pow_zero, Nat.mul_one, Nat.add_sub_cancel]
  rw [storedIndex_eq, storedIndex_eq, lastLeaf_shiftRight h, hleaf, Nat.add_zero]

/-! ## The number of places -/

/-- A tree has as many complete subtrees of each size as the size goes into the number of its
leaves. -/
theorem hashesBefore_eq_sum {levels size : Nat} (h : size < 2 ^ levels) :
    hashesBefore size = ∑ level ∈ Finset.range levels, size >>> level := by
  induction levels generalizing size with
  | zero =>
    obtain rfl : size = 0 := Nat.lt_one_iff.mp h
    rw [hashesBefore_zero, Finset.range_zero, Finset.sum_empty]
  | succ levels ih =>
    rw [Nat.pow_succ] at h
    have hhalf : size / 2 < 2 ^ levels := by omega
    rw [hashesBefore_eq, ih hhalf, Finset.sum_range_succ', Nat.shiftRight_zero, Nat.add_comm]
    congr 1
    refine Finset.sum_congr rfl ?_
    intro level _
    rw [Nat.add_comm level 1, Nat.shiftRight_add]
    rfl

end KeyTransparency.Tree
