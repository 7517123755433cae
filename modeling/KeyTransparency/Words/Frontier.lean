import KeyTransparency.Words.Run

/-!
# The frontier of a leaf, found in words

The frontier of a leaf as it is found in words.  A level at which the leaf's number has a zero bit
has a subtree to the right, whose first leaf is the next multiple of the subtree's size.
-/

namespace KeyTransparency.Words

/-- The frontier of leaf `n` at some levels, up to the first that the tree ends before. -/
def frontierAt? (n size : UInt64) : (levels : List Nat) → Option (List UInt64)
  | [] => some []
  | level :: levels => do
    let subtree ← shiftRight? n level
    if subtree &&& 1 = 1 then frontierAt? n size levels
    else
      let start ← shiftLeft? (← add? subtree 1) level
      if size ≤ start then return [] else return start :: (← frontierAt? n size levels)

/-- The frontier of leaf `n` in a tree of `size` leaves, from the leaf upwards. -/
def frontier? (n size : UInt64) : Option (List UInt64) := frontierAt? n size (List.range 64)

end KeyTransparency.Words
