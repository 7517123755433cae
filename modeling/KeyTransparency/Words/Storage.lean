import KeyTransparency.Tree.Storage
import KeyTransparency.Words.Layout
import KeyTransparency.Words.Subtrees

/-!
# Stored hashes, read and used in words

What is read for a proof, and what is made of the hashes read, as both are carried out in words.
The places to read are listed first, and all hashes are read at once.  Then the proof is made by a
second walk over the same subtrees, in which each subtree takes its hashes from the front of those
that are left.  A computation halts where it needs a hash that is not there, and where a subtree
whose hash is to be read does not begin at a multiple of its size.
-/

namespace KeyTransparency.Words

variable {α : Type}

/-- Reads one hash for every place. -/
def readExactly (reader : Tree.HashReader) (indexes : List UInt64) :
    Except TreeError (List Hash) :=
  Tree.readExactly reader (indexes.map (·.toNat))

/-! ## Appending -/

/-- The place of the left neighbour of the subtree of a level that ends with leaf `n`. -/
def leftIndex? (n : UInt64) (level : Nat) : Option UInt64 := do
  storedIndex? level.toUInt8 (← sub? (← shiftRight? n level) 1)

/-- The places of the left halves of the subtrees that leaf `n` completes, the largest first.  It
completes one for each zero bit at the low end of the next number. -/
def leftIndexes? (n : UInt64) : Option (List UInt64) := do
  let next ← add? n 1
  let indexes ← (List.range next.toBitVec.ctz.toNat).mapM (leftIndex? n)
  return indexes.reverse

/-- The hashes of the subtrees that end with a subtree whose hash is `last`, itself included, the
smallest first.  Those of their left halves are the first `count` of `old`, the largest first. -/
def completed? (old : List Hash) : (count : Nat) → (last : Hash) → Option (List Hash)
  | 0, last => some [last]
  | count + 1, last => do
    return last :: (← completed? old count (nodeHash (← member? count old) last))

/-- The hashes to store when leaf `n` is appended. -/
def appendHashes (n : UInt64) (leaf : Hash) (reader : Tree.HashReader) :
    Run TreeError (List Hash) := do
  let wanted ← leftIndexes? n
  let old ← readExactly reader wanted
  completed? old wanted.length leaf

/-! ## The hashes of a range of leaves -/

/-- The place of the hash of a complete subtree, given by its first position and the position that
follows its last one. -/
def subtreeIndex? (bounds : UInt64 × UInt64) : Option UInt64 := do
  let width ← sub? bounds.2 bounds.1
  let level ← log2? width
  if bounds.1 &&& (← sub? width 1) = 0 then
    storedIndex? level.toUInt8 (← shiftRight? bounds.1 level)
  else none

/-- The places needed already, and those of the hashes from which the hash of the leaves from `lo`
to `hi` is computed. -/
def subtreeIndexes? (lo hi : UInt64) (need : List UInt64) : Option (List UInt64) := do
  return need ++ (← (← subtreesFrom? hi 64 lo).mapM subtreeIndex?)

/-- The hash of a range of leaves from the hash of its last complete subtrees and the first `count`
hashes, which are those of the subtrees before. -/
def foldBack? (hashes : List Hash) : (count : Nat) → (hash : Hash) → Option Hash
  | 0, hash => some hash
  | count + 1, hash => do foldBack? hashes count (nodeHash (← member? count hashes) hash)

/-- The hash of the leaves from `lo` to `hi`, and the hashes that are left. -/
def subtreeHash? (lo hi : UInt64) (hashes : List Hash) : Option (Hash × List Hash) := do
  let count := (← subtreesFrom? hi 64 lo).length
  let before ← difference? count 1
  let hash ← foldBack? hashes before (← member? before hashes)
  return (hash, ← drop? count hashes)

/-! ## Making proofs -/

/-- A range of leaves, and the hash that was computed for it. -/
structure RangeHash where
  lo : UInt64
  hi : UInt64
  hash : Hash

/-- How far the making of a proof has come: the hashes that are left of those that were read, and
the hashes of ranges that have been computed. -/
structure Reading where
  unused : List Hash
  computed : List RangeHash

/-- A part of the making of a proof. -/
abbrev Making := StateT Reading Option

/-- Computes the hash of the leaves from `lo` to `hi`. -/
def rangeHash (lo hi : UInt64) : Making Hash := fun reading => do
  let (hash, unused) ← subtreeHash? lo hi reading.unused
  return (hash, ⟨unused, reading.computed ++ [⟨lo, hi, hash⟩]⟩)

/-- Reads the hashes at the places listed, and makes something of them. -/
def make (indexes : Option (List UInt64)) (making : Making α) (reader : Tree.HashReader) :
    Run TreeError α := do
  let wanted ← indexes
  let hashes ← readExactly reader wanted
  let (made, _) ← (making.run ⟨hashes, []⟩ : Option (α × Reading))
  return made

/-- The root of the tree of the first `size` leaves. -/
def treeHash (size : UInt64) (reader : Tree.HashReader) : Run TreeError Hash :=
  if size = 0 then return emptyTreeHash
  else make (subtreeIndexes? 0 size []) (rangeHash 0 size) reader

end KeyTransparency.Words
