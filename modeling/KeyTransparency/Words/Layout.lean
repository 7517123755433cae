import KeyTransparency.Words.Run

/-!
# Where hashes are stored, found in words

The places of stored hashes as they are found in words.  The place of a subtree's hash is counted
from the place of its last leaf, which is reached by going down to the right, and the hashes before
a leaf are counted by halving its number.
-/

namespace KeyTransparency.Words

/-- The last leaf of the `n`th subtree of a level. -/
def lastLeaf? : (level : Nat) → (n : UInt64) → Option UInt64
  | 0, n => some n
  | level + 1, n => do lastLeaf? level (← add? (← mul? 2 n) 1)

/-- A total to which a number is added, the half of it, the half of this, and so on. -/
def addHalves? (rounds : Nat) (total n : UInt64) : Option UInt64 :=
  if n = 0 then some total
  else
    match rounds with
    | 0 => none
    | rounds + 1 => do addHalves? rounds (← add? total n) (← shiftRight? n 1)

/-- The place of the hash of the `n`th subtree of a level. -/
def storedIndex? (level : UInt8) (n : UInt64) : Option UInt64 := do
  add? (← addHalves? 64 0 (← lastLeaf? level.toNat n)) level.toUInt64

/-- A total to which one is added for each one bit at the low end of a number. -/
def addTrailingOnes? (rounds : Nat) (total n : UInt64) : Option UInt64 :=
  if n &&& 1 = 0 then some total
  else
    match rounds with
    | 0 => none
    | rounds + 1 => do addTrailingOnes? rounds (← add? total 1) (← shiftRight? n 1)

/-- The number of hashes stored for a tree of `size` leaves. -/
def storedCount? (size : UInt64) : Option UInt64 :=
  if size = 0 then some 0
  else do
    let last ← sub? size 1
    addTrailingOnes? 64 (← add? (← storedIndex? 0 last) 1) last

end KeyTransparency.Words
