import KeyTransparency.Tree.Storage

/-!
# Proofs that a tree contains a leaf

An audit path holds one hash for every division on the way from a leaf to the root: that of the half
which does not contain the leaf, listed from the leaf upwards.  A path is checked from the root
down, so the computation it stands for is built along the reversed path.
-/

namespace KeyTransparency.Tree

/-- The ranges of leaves whose hashes make up the audit path of leaf `n`, counted from `start`, in a
tree of `size` leaves that begin there. -/
def siblingRanges (start size n : Nat) : List LeafRange :=
  if _h : size ≤ 1 then []
  else if n < leftSize size then
    siblingRanges start (leftSize size) n ++ [⟨start + leftSize size, start + size⟩]
  else
    siblingRanges (start + leftSize size) (size - leftSize size) (n - leftSize size)
      ++ [⟨start, start + leftSize size⟩]
termination_by size
decreasing_by
  all_goals
    have := leftSize_pos size
    have := leftSize_lt (show 1 < size by omega)
    omega

/-- The ranges whose hashes make up the audit path of leaf `n` in a tree of `size` leaves. -/
def copathRanges (n size : Nat) : Except TreeError (List LeafRange) :=
  if size ≤ n then .error (.invalidInput .leafBeyondTree) else .ok (siblingRanges 0 size n)

/-- Reads the audit path of leaf `n`, counted from `start`, in the tree of `size` leaves that begin
there.  The hashes are read from left to right. -/
def auditPlan (start size n : Nat) : Plan (List Hash) :=
  if _h : size ≤ 1 then .pure []
  else if n < leftSize size then
    .map (fun (path, right) => path ++ [right])
      (.both (auditPlan start (leftSize size) n)
        (.rangeHash (start + leftSize size) (size - leftSize size)))
  else
    .map (fun (left, path) => path ++ [left])
      (.both (.rangeHash start (leftSize size))
        (auditPlan (start + leftSize size) (size - leftSize size) (n - leftSize size)))
termination_by size
decreasing_by
  all_goals
    have := leftSize_pos size
    have := leftSize_lt (show 1 < size by omega)
    omega

/-- The proof that the tree of `size` leaves contains leaf `n`. -/
def proveRecord (size n : Nat) (reader : HashReader) : Except TreeError (List Hash) :=
  if size ≤ n then .error (.invalidInput .leafBeyondTree) else (auditPlan 0 size n).run reader

/-- The computation that an audit path calls for, the path being given from the root down. -/
def auditTree (leaf : Hash) : (path : List Hash) → (size n : Nat) → Except TreeError HashTree
  | [], size, _ =>
    if size ≤ 1 then .ok (.given leaf) else .error (.malformedProof .auditPathTooShort)
  | sibling :: path, size, n =>
    if size ≤ 1 then .error (.malformedProof .auditPathTooLong)
    else if n < leftSize size then do
      return .node (← auditTree leaf path (leftSize size) n) (.given sibling)
    else do
      return .node (.given sibling)
        (← auditTree leaf path (size - leftSize size) (n - leftSize size))

/-- Checks that the tree of `size` leaves with the given root has `leaf` as its leaf `n`. -/
def checkRecord (proof : List Hash) (size : Nat) (root : Hash) (n : Nat) (leaf : Hash) :
    Except TreeError Unit := do
  if size ≤ n then throw (.invalidInput .leafBeyondTree)
  let tree ← auditTree leaf proof.reverse size n
  if tree.hash = root then return () else throw .rootMismatch

end KeyTransparency.Tree
