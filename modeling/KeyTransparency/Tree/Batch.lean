import KeyTransparency.Tree.Storage

/-!
# Proofs that a tree contains a set of leaves

A batch proof shows that a tree contains several leaves at once.  It holds one hash for every
largest subtree that contains none of them, from left to right, so leaves that share a way to the
root share the hashes along it.
-/

namespace KeyTransparency.Tree

/-- Checks that positions in a tree of `size` leaves increase and lie within the tree. -/
def checkPositions (size : Nat) (positions : List Nat) : Except TreeError Unit := do
  if size = 0 then throw (.invalidInput .emptyTree)
  if ¬positions.Pairwise (· < ·) then throw .indexesOutOfOrder
  if positions.any (size ≤ ·) then throw (.invalidInput .leafBeyondTree)

/-- The positions below a division. -/
def leftPositions (division : Nat) (positions : List Nat) : List Nat :=
  positions.filter (· < division)

/-- The positions from a division on, counted from there. -/
def rightPositions (division : Nat) (positions : List Nat) : List Nat :=
  (positions.filter (division ≤ ·)).map (· - division)

/-- Reads the part of a proof that is about the subtree of `size` leaves from `start` on, positions
being counted from there. -/
def batchPlan (start size : Nat) (positions : List Nat) : Plan (List Hash) :=
  if positions = [] then .map (fun hash => [hash]) (.rangeHash start size)
  else if _h : size ≤ 1 then .pure []
  else
    .map (fun (left, right) => left ++ right)
      (.both (batchPlan start (leftSize size) (leftPositions (leftSize size) positions))
        (batchPlan (start + leftSize size) (size - leftSize size)
          (rightPositions (leftSize size) positions)))
termination_by size
decreasing_by
  all_goals
    have := leftSize_pos size
    have := leftSize_lt (show 1 < size by omega)
    omega

/-- The proof that the tree of `size` leaves contains the leaves at the given positions. -/
def proveBatch (size : Nat) (positions : List Nat) (reader : HashReader) :
    Except TreeError (List Hash) := do
  checkPositions size positions
  (batchPlan 0 size positions).run reader

/-- A leaf hash at a position. -/
structure PlacedLeaf where
  position : Nat
  leaf : Hash
deriving DecidableEq

/-- The leaves below a division. -/
def leftLeaves (division : Nat) (leaves : List PlacedLeaf) : List PlacedLeaf :=
  leaves.filter (·.position < division)

/-- The leaves from a division on, their positions counted from there. -/
def rightLeaves (division : Nat) (leaves : List PlacedLeaf) : List PlacedLeaf :=
  (leaves.filter (division ≤ ·.position)).map fun l => ⟨l.position - division, l.leaf⟩

/-- The computation of the root of a subtree of `size` leaves, some of which are known, and the
hashes of the proof that are left. -/
def batchTree (size : Nat) (known : List PlacedLeaf) (proof : List Hash) :
    Except TreeError (HashTree × List Hash) :=
  match known with
  | [] =>
    match proof with
    | [] => .error (.malformedProof .batchTooShort)
    | hash :: rest => .ok (.given hash, rest)
  | first :: _ =>
    if _h : size ≤ 1 then .ok (.given first.leaf, proof)
    else do
      let (left, rest) ← batchTree (leftSize size) (leftLeaves (leftSize size) known) proof
      let (right, rest) ←
        batchTree (size - leftSize size) (rightLeaves (leftSize size) known) rest
      return (.node left right, rest)
termination_by size
decreasing_by
  all_goals
    have := leftSize_pos size
    have := leftSize_lt (show 1 < size by omega)
    omega

/-- The computation that a batch proof calls for. -/
def batchTreeOf (size : Nat) (positions : List Nat) (leaves proof : List Hash) :
    Except TreeError HashTree := do
  checkPositions size positions
  if positions.length ≠ leaves.length then
    throw (.invalidInput (.leafCount positions.length leaves.length))
  let (tree, rest) ← batchTree size (List.zipWith PlacedLeaf.mk positions leaves) proof
  if rest = [] then return tree else throw (.malformedProof .batchUnused)

/-- The root to which a batch proof leads. -/
def evaluateBatch (size : Nat) (positions : List Nat) (leaves proof : List Hash) :
    Except TreeError Hash := do
  return (← batchTreeOf size positions leaves proof).hash

/-- Checks that the tree of `size` leaves with the given root has the given leaves at the given
positions. -/
def checkBatch (proof : List Hash) (size : Nat) (root : Hash) (positions : List Nat)
    (leaves : List Hash) : Except TreeError Unit := do
  if (← evaluateBatch size positions leaves proof) = root then return () else throw .rootMismatch

end KeyTransparency.Tree
