/-!
# The frontier of a leaf

The frontier of a leaf is made of the first leaves of the subtrees that lie to its right along its
way to the root.  They are found from the bits of the leaf's number: each level at which the bit is
zero has a subtree to the right, unless the tree ends before it.
-/

namespace KeyTransparency.Tree

/-- The number of bits in a position. -/
def positionBits : Nat := 64

/-- The first leaf of the subtree with `2 ^ level` leaves that comes right after the one of that
size which contains leaf `n`. -/
def nextSubtreeStart (n level : Nat) : Nat := ((n >>> level) + 1) <<< level

/-- The frontier of leaf `n` in a tree of `size` leaves, from the leaf upwards. -/
def frontier (n size : Nat) : List Nat :=
  let levels := (List.range positionBits).filter fun level => !n.testBit level
  (levels.map (nextSubtreeStart n)).takeWhile (· < size)

/-- The positions that monitoring of an entry covers: the entry and its frontier. -/
def monitoredPositions (entry size : Nat) : List Nat := entry :: frontier entry size

end KeyTransparency.Tree
