import KeyTransparency.Hash
import KeyTransparency.Tree.Split

/-!
# Roots and how they are computed

A root is computed by combining hashes in pairs.  `HashTree` records such a computation: the hashes
that are given, and which results are combined.  A checker builds the computation that a proof calls
for and compares its result with the root it was given, so what the checker hashes is what the
computation lists.

The tree of a list of leaf hashes is the computation that divides the list at `leftSize`, and its
result is the root of the list.
-/

namespace KeyTransparency.Tree

/-- A computation of a hash from given hashes. -/
inductive HashTree where
  | given (hash : Hash)
  | node (left right : HashTree)
deriving DecidableEq

namespace HashTree

/-- The result of a computation. -/
def hash : HashTree → Hash
  | given h => h
  | node left right => nodeHash left.hash right.hash

/-- The byte strings that a computation hashes. -/
def messages : HashTree → List Bytes
  | given _ => []
  | node left right => nodeMessage left.hash right.hash :: (left.messages ++ right.messages)

end HashTree

/-- The computation of the root over leaf hashes, of which there is at least one. -/
def ofLeaves : List Hash → HashTree
  | [] => .given emptyTreeHash
  | [leaf] => .given leaf
  | first :: second :: rest =>
    let leaves := first :: second :: rest
    .node (ofLeaves (leaves.take (leftSize leaves.length)))
      (ofLeaves (leaves.drop (leftSize leaves.length)))
termination_by leaves => leaves.length
decreasing_by
  all_goals
    have positive := leftSize_pos (first :: second :: rest).length
    have smaller := leftSize_lt (show 1 < (first :: second :: rest).length by simp)
    simp only [List.length_take, List.length_drop]
    omega

/-- The root of a tree with the given leaf hashes.  A tree without leaves has the empty tree's
hash. -/
def root (leaves : List Hash) : Hash := (ofLeaves leaves).hash

end KeyTransparency.Tree
