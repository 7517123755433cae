import KeyTransparency.Tree.Storage

/-!
# Proofs that a tree extends another

A consistency proof shows that the leaves of a smaller tree are the first leaves of a larger one.
Its hashes are those of the halves passed by on the way down to the point where the smaller tree
ends.  If the way led only to the left, the subtree reached is the whole smaller tree, whose root
the reader knows; otherwise its hash is part of the proof.

The functions here walk a subtree of `size` leaves of which the first `old` are old.  The flag
`leftmost` says that the subtree begins with the first leaf of all.
-/

namespace KeyTransparency.Tree

/-- The number of hashes in the part of a proof that is about a subtree. -/
def consistencyLength (leftmost : Bool) (old size : Nat) : Nat :=
  if _h : old = size ∨ size ≤ 1 then (if leftmost then 0 else 1)
  else if old ≤ leftSize size then consistencyLength leftmost old (leftSize size) + 1
  else consistencyLength false (old - leftSize size) (size - leftSize size) + 1
termination_by size
decreasing_by
  all_goals
    have := leftSize_pos size
    have := leftSize_lt (show 1 < size by omega)
    omega

/-- Whether `old` can be the size of an earlier tree. -/
def checkSizes (old size : Nat) : Except TreeError Unit :=
  if 1 ≤ old ∧ old ≤ size then .ok () else .error (.invalidInput .oldSizeBeyondTree)

/-- The number of hashes in a consistency proof. -/
def treeProofLength (old size : Nat) : Except TreeError Nat := do
  checkSizes old size
  return consistencyLength true old size

/-- Reads the part of a proof that is about the subtree of `size` leaves from `start` on.  The
hashes are read from left to right. -/
def consistencyPlan (leftmost : Bool) (start old size : Nat) : Plan (List Hash) :=
  if _h : old = size ∨ size ≤ 1 then
    if leftmost then .pure [] else .map (fun hash => [hash]) (.rangeHash start size)
  else if old ≤ leftSize size then
    .map (fun (proof, right) => proof ++ [right])
      (.both (consistencyPlan leftmost start old (leftSize size))
        (.rangeHash (start + leftSize size) (size - leftSize size)))
  else
    .map (fun (left, proof) => proof ++ [left])
      (.both (.rangeHash start (leftSize size))
        (consistencyPlan false (start + leftSize size) (old - leftSize size)
          (size - leftSize size)))
termination_by size
decreasing_by
  all_goals
    have := leftSize_pos size
    have := leftSize_lt (show 1 < size by omega)
    omega

/-- The proof that the tree of `size` leaves extends the tree of its first `old` leaves. -/
def proveTree (size old : Nat) (reader : HashReader) : Except TreeError (List Hash) := do
  checkSizes old size
  (consistencyPlan true 0 old size).run reader

/-- The computations of the old and of the new root of a subtree that a proof calls for.  The proof
is given from the root down, and `known` is the root of the whole old tree. -/
def consistencyTrees (known : Hash) :
    (proof : List Hash) → (leftmost : Bool) → (old size : Nat) →
      Except TreeError (HashTree × HashTree)
  | [], leftmost, old, size =>
    if old = size then
      if leftmost then .ok (.given known, .given known)
      else .error (.malformedProof .consistencyTooLong)
    else .error (.malformedProof .consistencyTooShort)
  | hash :: proof, leftmost, old, size =>
    if old = size then
      if leftmost ∨ proof ≠ [] then .error (.malformedProof .consistencyTooLong)
      else .ok (.given hash, .given hash)
    else if old ≤ leftSize size then do
      let (before, after) ← consistencyTrees known proof leftmost old (leftSize size)
      return (before, .node after (.given hash))
    else do
      let (before, after) ←
        consistencyTrees known proof false (old - leftSize size) (size - leftSize size)
      return (.node (.given hash) before, .node (.given hash) after)

/-- The computations of the old and of the new root that a proof calls for, the proof being given as
it is sent. -/
def consistencyTreesOf (proof : List Hash) (size old : Nat) (oldRoot : Hash) :
    Except TreeError (HashTree × HashTree) := do
  let needed ← treeProofLength old size
  if proof.length ≠ needed then
    throw (.malformedProof (.consistencyLength old size needed proof.length))
  consistencyTrees oldRoot proof.reverse true old size

/-- Checks that the tree of `size` leaves with root `root` extends the tree of `old` leaves with
root `oldRoot`. -/
def checkTree (proof : List Hash) (size : Nat) (root : Hash) (old : Nat) (oldRoot : Hash) :
    Except TreeError Unit := do
  let (before, after) ← consistencyTreesOf proof size old oldRoot
  if after.hash = root ∧ before.hash = oldRoot then return () else throw .rootMismatch

end KeyTransparency.Tree
