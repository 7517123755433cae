import KeyTransparency.Words.Storage

/-!
# Proofs about trees, made in words

Audit paths, consistency proofs and batch proofs as they are made in words.  For each kind of proof
one walk lists the places to read, and a second walk makes the proof of the hashes read there.
-/

namespace KeyTransparency.Words

/-! ## Audit paths -/

/-- The places needed already, and those for the part of the audit path of leaf `n` that lies
within the subtree from `lo` to `hi`. -/
def auditIndexes? (divisions : Nat) (lo hi n : UInt64) (need : List UInt64) :
    Option (List UInt64) := do
  if (← add? lo 1) = hi then return need
  else
    match divisions with
    | 0 => none
    | divisions + 1 => do
      let middle ← middle? lo hi
      if n < middle then
        let need ← auditIndexes? divisions lo middle n need
        subtreeIndexes? middle hi need
      else
        let need ← subtreeIndexes? lo middle need
        auditIndexes? divisions middle hi n need

/-- The part of the audit path of leaf `n` that lies within the subtree from `lo` to `hi`. -/
def auditPath (divisions : Nat) (lo hi n : UInt64) : Making (List Hash) := do
  if (← add? lo 1) = hi then return []
  else
    match divisions with
    | 0 => failure
    | divisions + 1 => do
      let middle ← middle? lo hi
      if n < middle then
        let path ← auditPath divisions lo middle n
        let right ← rangeHash middle hi
        return path ++ [right]
      else
        let left ← rangeHash lo middle
        let path ← auditPath divisions middle hi n
        return path ++ [left]

/-- The proof that the tree of `size` leaves contains leaf `n`. -/
def proveRecord (size n : UInt64) (reader : Tree.HashReader) : Run TreeError (List Hash) :=
  if size ≤ n then throw (.invalidInput .leafBeyondTree)
  else
    make (auditIndexes? maxDivisions 0 size n []) (auditPath maxDivisions 0 size n) reader

/-! ## Consistency proofs -/

/-- The places needed already, and those for the part of a consistency proof that is about the
subtree from `lo` to `hi`. -/
def consistencyIndexes? (divisions : Nat) (lo hi old : UInt64) (need : List UInt64) :
    Option (List UInt64) :=
  if old = hi then
    if lo = 0 then some need else subtreeIndexes? lo hi need
  else
    match divisions with
    | 0 => none
    | divisions + 1 => do
      let middle ← middle? lo hi
      if old ≤ middle then
        let need ← consistencyIndexes? divisions lo middle old need
        subtreeIndexes? middle hi need
      else
        let need ← subtreeIndexes? lo middle need
        consistencyIndexes? divisions middle hi old need

/-- The part of a consistency proof that is about the subtree from `lo` to `hi`. -/
def consistencyProof (divisions : Nat) (lo hi old : UInt64) : Making (List Hash) :=
  if old = hi then
    if lo = 0 then return []
    else do
      let hash ← rangeHash lo hi
      return [hash]
  else
    match divisions with
    | 0 => failure
    | divisions + 1 => do
      let middle ← middle? lo hi
      if old ≤ middle then
        let proof ← consistencyProof divisions lo middle old
        let right ← rangeHash middle hi
        return proof ++ [right]
      else
        let left ← rangeHash lo middle
        let proof ← consistencyProof divisions middle hi old
        return proof ++ [left]

/-- The proof that the tree of `size` leaves extends the tree of its first `old` leaves. -/
def proveTree (size old : UInt64) (reader : Tree.HashReader) : Run TreeError (List Hash) := do
  Tree.checkSizes old.toNat size.toNat
  make (consistencyIndexes? maxDivisions 0 size old []) (consistencyProof maxDivisions 0 size old)
    reader

/-! ## Batch proofs -/

/-- The places needed already, and those for the part of a batch proof that is about the subtree
from `lo` to `hi`. -/
def batchIndexes? (divisions : Nat) (lo hi : UInt64) (positions : List UInt64)
    (need : List UInt64) : Option (List UInt64) := do
  if positions = [] then subtreeIndexes? lo hi need
  else if (← add? lo 1) = hi then return need
  else
    match divisions with
    | 0 => none
    | divisions + 1 => do
      let middle ← middle? lo hi
      let split := countBefore middle positions
      let need ← batchIndexes? divisions lo middle (← take? split positions) need
      batchIndexes? divisions middle hi (← drop? split positions) need

/-- The part of a batch proof that is about the subtree from `lo` to `hi`. -/
def batchProof (divisions : Nat) (lo hi : UInt64) (positions : List UInt64) :
    Making (List Hash) := do
  if positions = [] then
    let hash ← rangeHash lo hi
    return [hash]
  else if (← add? lo 1) = hi then return []
  else
    match divisions with
    | 0 => failure
    | divisions + 1 => do
      let middle ← middle? lo hi
      let split := countBefore middle positions
      let left ← batchProof divisions lo middle (← take? split positions)
      let right ← batchProof divisions middle hi (← drop? split positions)
      return left ++ right

/-- The proof that the tree of `size` leaves contains the leaves at the given positions. -/
def proveBatch (size : UInt64) (positions : List UInt64) (reader : Tree.HashReader) :
    Run TreeError (List Hash) := do
  Tree.checkPositions size.toNat (positions.map (·.toNat))
  make (batchIndexes? maxDivisions 0 size positions []) (batchProof maxDivisions 0 size positions)
    reader

end KeyTransparency.Words
