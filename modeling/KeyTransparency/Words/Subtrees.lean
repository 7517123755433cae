import KeyTransparency.Words.Tree

/-!
# Complete subtrees, found in words

The complete subtrees that make up a tree as they are found in words, from left to right.  The
largest subtree that fits into what is left has as many leaves as the left half of a tree with one
leaf more, and this one more must fit into a word too.
-/

namespace KeyTransparency.Words

/-- The first positions of the complete subtrees from `lo` on, and the positions that follow their
last ones, in a tree of `size` leaves. -/
def subtreesFrom? (size : UInt64) (rounds : Nat) (lo : UInt64) : Option (List (UInt64 × UInt64)) :=
  if lo < size then
    match rounds with
    | 0 => none
    | rounds + 1 => do
      let width ← leftSize? (← add? (← sub? size lo) 1)
      let hi ← add? lo width
      return (lo, hi) :: (← subtreesFrom? size rounds hi)
  else some []

/-- The complete subtrees of a tree of `size` leaves, of which there is at most one for each bit of
a word. -/
def completeSubtrees? (size : UInt64) : Option (List (UInt64 × UInt64)) := subtreesFrom? size 64 0

end KeyTransparency.Words
