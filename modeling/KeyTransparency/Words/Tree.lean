import KeyTransparency.Tree.Batch
import KeyTransparency.Tree.Consistency
import KeyTransparency.Tree.Record
import KeyTransparency.Words.Run

/-!
# Proofs about trees, checked in words

The checks of consistency proofs, audit paths and batch proofs as they are carried out in words.  A
subtree is given by the positions of its first leaf and of the leaf that follows its last one, and
it is divided no more often than a word has bits.
-/

namespace KeyTransparency.Words

/-- The greatest number of times that a subtree is divided. -/
def maxDivisions : Nat := 64

/-- The number of leaves in the left half of a tree, which must have two leaves at least. -/
def leftSize? (size : UInt64) : Option UInt64 := do
  shiftLeft? 1 (← log2? (← sub? size 1))

/-- The first position in the right half of the subtree from `lo` to `hi`. -/
def middle? (lo hi : UInt64) : Option UInt64 := do
  add? lo (← leftSize? (← sub? hi lo))

/-! ## Consistency proofs -/

/-- The number of hashes in the part of a consistency proof that is about the subtree from `lo` to
`hi`. -/
def consistencyLength? (divisions : Nat) (old lo hi : UInt64) : Option Nat :=
  if old = hi then some (if lo = 0 then 0 else 1)
  else
    match divisions with
    | 0 => none
    | divisions + 1 => do
      let middle ← middle? lo hi
      if old ≤ middle then return (← consistencyLength? divisions old lo middle) + 1
      else return (← consistencyLength? divisions old middle hi) + 1

def treeProofLength (old size : UInt64) : Run TreeError Nat := do
  Tree.checkSizes old.toNat size.toNat
  consistencyLength? maxDivisions old 0 size

/-- The old and the new hash of the subtree from `lo` to `hi` that a proof leads to.  The proof is
given from the root down. -/
def consistencyHashes (known : Hash) (divisions : Nat) (proof : List Hash) (old lo hi : UInt64) :
    Run TreeError (Hash × Hash) :=
  if old = hi then
    if lo = 0 then
      if proof ≠ [] then throw (.malformedProof .consistencyTooLong) else return (known, known)
    else if proof.length ≠ 1 then throw (.malformedProof .consistencyTooLong)
    else do
      let hash ← (member? 0 proof : Option Hash)
      return (hash, hash)
  else
    match proof with
    | [] => throw (.malformedProof .consistencyTooShort)
    | hash :: proof =>
      match divisions with
      | 0 => halt
      | divisions + 1 => do
        let middle ← middle? lo hi
        if old ≤ middle then do
          let (before, after) ← consistencyHashes known divisions proof old lo middle
          return (before, nodeHash after hash)
        else do
          let (before, after) ← consistencyHashes known divisions proof old middle hi
          return (nodeHash hash before, nodeHash hash after)

/-- The old and the new root that a proof leads to, the proof being given as it is sent. -/
def consistencyHashesOf (proof : List Hash) (size old : UInt64) (oldRoot : Hash) :
    Run TreeError (Hash × Hash) := do
  let needed ← treeProofLength old size
  if proof.length ≠ needed then
    throw (.malformedProof (.consistencyLength old.toNat size.toNat needed proof.length))
  consistencyHashes oldRoot maxDivisions proof.reverse old 0 size

/-- Checks that the tree of `size` leaves with root `root` extends the tree of `old` leaves with
root `oldRoot`. -/
def checkTree (proof : List Hash) (size : UInt64) (root : Hash) (old : UInt64) (oldRoot : Hash) :
    Run TreeError Unit := do
  let (before, after) ← consistencyHashesOf proof size old oldRoot
  if after = root ∧ before = oldRoot then return () else throw .rootMismatch

/-! ## Audit paths -/

/-- The hash of the subtree from `lo` to `hi` that an audit path leads to.  The path is given from
the root down. -/
def auditHash (leaf : Hash) (n : UInt64) :
    (divisions : Nat) → (path : List Hash) → (lo hi : UInt64) → Run TreeError Hash
  | _, [], lo, hi => do
    if (← add? lo 1) = hi then return leaf else throw (.malformedProof .auditPathTooShort)
  | 0, _ :: _, lo, hi => do
    if (← add? lo 1) = hi then throw (.malformedProof .auditPathTooLong) else halt
  | divisions + 1, sibling :: path, lo, hi => do
    if (← add? lo 1) = hi then throw (.malformedProof .auditPathTooLong)
    else
      let middle ← middle? lo hi
      if n < middle then return nodeHash (← auditHash leaf n divisions path lo middle) sibling
      else return nodeHash sibling (← auditHash leaf n divisions path middle hi)

/-- Checks that the tree of `size` leaves with the given root has `leaf` as its leaf `n`. -/
def checkRecord (proof : List Hash) (size : UInt64) (root : Hash) (n : UInt64) (leaf : Hash) :
    Run TreeError Unit := do
  if size ≤ n then throw (.invalidInput .leafBeyondTree)
  if (← auditHash leaf n maxDivisions proof.reverse 0 size) = root then return ()
  else throw .rootMismatch

/-! ## Batch proofs -/

/-- The number of positions before a division, which are the first ones since positions increase. -/
def countBefore (middle : UInt64) (positions : List UInt64) : Nat :=
  (positions.takeWhile (· < middle)).length

/-- The hash of the subtree from `lo` to `hi`, some leaves of which are known, and the hashes of the
proof that are left. -/
def batchHash (divisions : Nat) (lo hi : UInt64) (positions : List UInt64)
    (leaves proof : List Hash) : Run TreeError (Hash × List Hash) := do
  if positions = [] then
    match proof with
    | [] => throw (.malformedProof .batchTooShort)
    | hash :: rest => return (hash, rest)
  else if (← add? lo 1) = hi then return (← (member? 0 leaves : Option Hash), proof)
  else
    match divisions with
    | 0 => halt
    | divisions + 1 => do
      let middle ← middle? lo hi
      let split := countBefore middle positions
      let (left, rest) ← batchHash divisions lo middle (← take? split positions)
        (← take? split leaves) proof
      let (right, rest) ← batchHash divisions middle hi (← drop? split positions)
        (← drop? split leaves) rest
      return (nodeHash left right, rest)

/-- The root to which a batch proof leads. -/
def evaluateBatch (size : UInt64) (positions : List UInt64) (leaves proof : List Hash) :
    Run TreeError Hash := do
  Tree.checkPositions size.toNat (positions.map (·.toNat))
  if positions.length ≠ leaves.length then
    throw (.invalidInput (.leafCount positions.length leaves.length))
  let (hash, rest) ← batchHash maxDivisions 0 size positions leaves proof
  if rest = [] then return hash else throw (.malformedProof .batchUnused)

end KeyTransparency.Words
