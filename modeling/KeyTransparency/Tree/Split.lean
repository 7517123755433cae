import KeyTransparency.Power

/-!
# Where a tree divides

A tree of two or more leaves has as its left half the largest complete tree that leaves something
for the right.  Every recursion over a tree follows this division, so its bounds are what makes them
end.
-/

namespace KeyTransparency.Tree

/-- The number of leaves in the left half of a tree of `size` leaves: the largest power of two below
`size`, for a size of at least two. -/
def leftSize (size : Nat) : Nat := 2 ^ (size - 1).log2

theorem leftSize_pos (size : Nat) : 0 < leftSize size := Nat.two_pow_pos _

theorem leftSize_lt {size : Nat} (h : 2 ≤ size) : leftSize size < size := by
  have : 2 ^ (size - 1).log2 ≤ size - 1 := Nat.log2_self_le (by omega)
  unfold leftSize
  omega

theorem le_two_mul_leftSize {size : Nat} (h : 2 ≤ size) : size ≤ 2 * leftSize size := by
  have : size - 1 < 2 ^ ((size - 1).log2 + 1) := Nat.lt_log2_self
  rw [Nat.pow_succ] at this
  unfold leftSize
  omega

end KeyTransparency.Tree
