import KeyTransparency.Tree.Split

/-!
# The layout of stored hashes

The hashes of all complete subtrees are stored in one sequence, in the order in which they become
known as leaves are appended: a leaf first, then the subtrees it completes, smallest first.  This
module says where the hash of a subtree is stored and how many hashes a tree stores, and divides a
range of leaves into the complete subtrees whose hashes make up its root.
-/

namespace KeyTransparency.Tree

/-- The number of hashes that are stored before leaf `n`: every leaf and, for every power of two,
the complete subtrees of that size. -/
def hashesBefore (n : Nat) : Nat :=
  if n = 0 then 0 else n + hashesBefore (n / 2)

/-- The place of the hash of the `n`th subtree with `2 ^ level` leaves.  It is stored right after
the last of its leaves and the smaller subtrees that end there. -/
def storedIndex (level n : Nat) : Nat := hashesBefore ((n + 1) * 2 ^ level - 1) + level

/-- The number of one bits at the low end of a number. -/
def trailingOnes (n : Nat) : Nat :=
  if n % 2 = 1 then trailingOnes (n / 2) + 1 else 0

/-- The number of hashes stored for a tree of `size` leaves: those up to the last leaf, and the
subtrees that this leaf completes. -/
def storedCount (size : Nat) : Nat :=
  if size = 0 then 0 else storedIndex 0 (size - 1) + 1 + trailingOnes (size - 1)

/-- The leaves from `start` up to but without `stop`. -/
structure LeafRange where
  start : Nat
  stop : Nat
deriving DecidableEq

/-- A complete subtree: its `2 ^ level` leaves begin at `start`. -/
structure Subtree where
  level : Nat
  start : Nat
deriving DecidableEq

namespace Subtree

/-- The leaves of a subtree. -/
def range (s : Subtree) : LeafRange := ⟨s.start, s.start + 2 ^ s.level⟩

/-- The place where the hash of a subtree is stored. -/
def index (s : Subtree) : Nat := storedIndex s.level (s.start >>> s.level)

end Subtree

/-- The complete subtrees that make up `size` leaves from `start` on, the largest first. -/
def completeSubtrees (start size : Nat) : List Subtree :=
  if size = 0 then []
  else ⟨size.log2, start⟩ :: completeSubtrees (start + 2 ^ size.log2) (size - 2 ^ size.log2)
termination_by size
decreasing_by
  have : 0 < 2 ^ size.log2 := Nat.two_pow_pos _
  omega

/-- The places of the hashes from which the root of a range of leaves is computed. -/
def subtreeIndexes (start size : Nat) : List Nat := (completeSubtrees start size).map Subtree.index

end KeyTransparency.Tree
