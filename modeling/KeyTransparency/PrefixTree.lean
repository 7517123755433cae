import KeyTransparency.Hash
import KeyTransparency.Identifier

/-!
# Prefix trees

Every log entry carries the root of a tree that maps commitment indexes to version counters.  The
bits of an index lead from the root to its leaf.  A proof gives the counter and the hashes beside
this way, from the leaf up to the root, so that the root can be recomputed; the leaf of the log
binds the root to the entry's commitment.
-/

namespace KeyTransparency

/-- The number of levels of the deepest tree: one for each bit of an index. -/
def PrefixTree.maxDepth : Nat := 256

/-- The counter of an index, and the hashes beside its way to the root, from the leaf upwards. -/
structure PrefixProof where
  copath : List Hash
  counter : UInt32
deriving DecidableEq

/-- Why a proof is refused. -/
inductive PrefixError where
  | pathTooLong (length : Nat)
  | versionRegression (counter bound : UInt32)
deriving DecidableEq

/-- The error in words. -/
def PrefixError.message : PrefixError → String
  | pathTooLong length =>
    let max := PrefixTree.maxDepth
    s!"prefix tree copath has {length} entries, at most {max} allowed"
  | versionRegression counter bound =>
    s!"prefix tree counter {counter} is below the known counter {bound}"

namespace PrefixTree

/-- What is hashed for the leaf of an index. -/
def leafMessage (index : CommitmentIndex) (counter : UInt32) : Bytes :=
  0x02 :: (index.bytes ++ bigEndian 4 counter.toNat)

/-- What is hashed for an interior node. -/
def nodeMessage (left right : Hash) : Bytes := 0x03 :: (left.bytes ++ right.bytes)

/-- The hash of the leaf of an index. -/
def leafHash (index : CommitmentIndex) (counter : UInt32) : Hash :=
  Hash.ofMessage (leafMessage index counter)

/-- The hash of an interior node. -/
def nodeHash (left right : Hash) : Hash := Hash.ofMessage (nodeMessage left right)

/-- The root above a node on the way of an index, from the hashes beside the rest of the way.  As
many hashes are left as there are bits above the node, so their number says which bit comes next. -/
def rootAbove (index : CommitmentIndex) (node : Hash) : (copath : List Hash) → Hash
  | [] => node
  | sibling :: above =>
    let parent := if index.bit above.length then nodeHash sibling node else nodeHash node sibling
    rootAbove index parent above

/-- The root that a proof leads to. -/
def rootOf (index : CommitmentIndex) (proof : PrefixProof) : Hash :=
  rootAbove index (leafHash index proof.counter) proof.copath

/-- The root that a proof leads to, if the proof is not too long and its counter has reached the
bound, where one is given. -/
def verify (index : CommitmentIndex) (proof : PrefixProof) (bound : Option UInt32) :
    Except PrefixError Hash := do
  if maxDepth < proof.copath.length then throw (.pathTooLong proof.copath.length)
  if let some least := bound then
    if proof.counter < least then throw (.versionRegression proof.counter least)
  return rootOf index proof

end PrefixTree

/-- What is hashed for a log entry: its prefix tree's root and its commitment. -/
def entryData (prefixRoot commitment : Hash) : Bytes := prefixRoot.bytes ++ commitment.bytes

/-- The leaf of the log for an entry. -/
def entryLeafHash (prefixRoot commitment : Hash) : Hash :=
  recordHash (entryData prefixRoot commitment)

end KeyTransparency
