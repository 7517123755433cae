import KeyTransparency.Error
import KeyTransparency.Tree.Batch

/-!
# The leaves that a response touches

The entries shown by the proofs in a response imply leaf hashes at positions of the log.  They are
collected in a set with one leaf for each position, in order of position, and one batch proof shows
that the log contains them all.  The main statements are that the order is kept and what the set
holds after an insertion.
-/

namespace KeyTransparency

open KeyTransparency.Tree (PlacedLeaf)

/-- Leaf hashes at positions, one for each position, in order of position. -/
structure LeafSet where
  leaves : List PlacedLeaf
  sorted : leaves.Pairwise (·.position < ·.position)
deriving DecidableEq

namespace LeafSet

/-- The set without leaves. -/
def empty : LeafSet := ⟨[], .nil⟩

/-- The number of leaves. -/
def size (set : LeafSet) : Nat := set.leaves.length

/-- The leaf hash at a position. -/
def leafAt? (set : LeafSet) (position : Nat) : Option Hash :=
  (set.leaves.find? (·.position == position)).map (·.leaf)

/-- The list with a leaf put in its place, instead of the leaf at its position if there is one. -/
def place (new : PlacedLeaf) : List PlacedLeaf → List PlacedLeaf
  | [] => [new]
  | old :: rest =>
    if new.position < old.position then new :: old :: rest
    else if new.position = old.position then new :: rest
    else old :: place new rest

theorem mem_place {new leaf : PlacedLeaf} {leaves : List PlacedLeaf} (h : leaf ∈ place new leaves) :
    leaf = new ∨ leaf ∈ leaves := by
  induction leaves with
  | nil => exact .inl (by simpa [place] using h)
  | cons old rest ih =>
    unfold place at h
    split at h
    · simpa using h
    · split at h
      · rcases List.mem_cons.1 h with rfl | h
        · exact .inl rfl
        · exact .inr (List.mem_cons_of_mem _ h)
      · rcases List.mem_cons.1 h with rfl | h
        · exact .inr List.mem_cons_self
        · exact (ih h).imp_right (List.mem_cons_of_mem _)

theorem sorted_place (new : PlacedLeaf) {leaves : List PlacedLeaf}
    (h : leaves.Pairwise (·.position < ·.position)) :
    (place new leaves).Pairwise (·.position < ·.position) := by
  induction leaves with
  | nil => simp [place]
  | cons old rest ih =>
    obtain ⟨above, later⟩ := List.pairwise_cons.1 h
    unfold place
    split
    · rename_i before
      refine List.pairwise_cons.2 ⟨fun leaf mem => ?_, h⟩
      rcases List.mem_cons.1 mem with rfl | mem
      · exact before
      · exact Nat.lt_trans before (above leaf mem)
    · split
      · rename_i same
        refine List.pairwise_cons.2 ⟨fun leaf mem => ?_, later⟩
        rw [same]
        exact above leaf mem
      · refine List.pairwise_cons.2 ⟨fun leaf mem => ?_, ih later⟩
        rcases mem_place mem with rfl | mem
        · omega
        · exact above leaf mem

/-- The set with a leaf put in, instead of the leaf at its position if there is one. -/
def insert (set : LeafSet) (new : PlacedLeaf) : LeafSet :=
  ⟨place new set.leaves, sorted_place new set.sorted⟩

theorem find?_place (new : PlacedLeaf) (leaves : List PlacedLeaf) (position : Nat) :
    (place new leaves).find? (·.position == position) =
      if new.position = position then some new else leaves.find? (·.position == position) := by
  induction leaves with
  | nil =>
    by_cases here : new.position = position
    · rw [place, List.find?_cons, if_pos here, beq_iff_eq.2 here]
    · rw [place, List.find?_cons, if_neg here, beq_eq_false_iff_ne.2 here]
  | cons old rest ih =>
    unfold place
    by_cases here : new.position = position
    · rw [if_pos here]
      split
      · rw [List.find?_cons, beq_iff_eq.2 here]
      · split
        · rw [List.find?_cons, beq_iff_eq.2 here]
        · have elsewhere : old.position ≠ position := by omega
          rw [List.find?_cons, beq_eq_false_iff_ne.2 elsewhere, ih, if_pos here]
    · rw [if_neg here]
      split
      · rw [List.find?_cons, beq_eq_false_iff_ne.2 here]
      · split
        · have elsewhere : old.position ≠ position := by omega
          rw [List.find?_cons, beq_eq_false_iff_ne.2 here, List.find?_cons,
            beq_eq_false_iff_ne.2 elsewhere]
        · rw [List.find?_cons, ih, if_neg here, List.find?_cons]

/-- An insertion decides about its own position and leaves all others as they were. -/
theorem leafAt?_insert (set : LeafSet) (new : PlacedLeaf) (position : Nat) :
    (set.insert new).leafAt? position =
      if new.position = position then some new.leaf else set.leafAt? position := by
  unfold leafAt? insert
  rw [find?_place]
  split
  · rfl
  · rfl

/-- Whether the set has another leaf at the position of a new one. -/
def conflicts (set : LeafSet) (new : PlacedLeaf) : Bool :=
  match set.leafAt? new.position with
  | some leaf => leaf != new.leaf
  | none => false

/-- Checks that the tree of `size` entries with the given root contains all leaves. -/
def verify (set : LeafSet) (size : Nat) (root : Hash) (proof : List Hash) :
    Except VerificationError Unit :=
  let positions := set.leaves.map (·.position)
  let leaves := set.leaves.map (·.leaf)
  match Tree.evaluateBatch size positions leaves proof with
  | .ok computed => if computed = root then .ok () else .error .inclusionMismatch
  | .error .rootMismatch => .error .inclusionMismatch
  | .error error => .error (.malformedProof (.inclusion error))

end LeafSet

/-- A check that collects leaves.  Where it fails, the leaves collected before are kept. -/
abbrev Collect := ExceptT VerificationError (StateM LeafSet)

/-- The value of a check that starts without leaves, and the leaves that it collects. -/
def Collect.fromEmpty {α : Type} (check : Collect α) : Except VerificationError (α × LeafSet) :=
  let (value, set) := check.run LeafSet.empty
  value.map fun value => (value, set)

/-- Puts a leaf into the set, and fails if the set had another one at its position. -/
def Collect.insert (new : PlacedLeaf) : Collect Unit := do
  let before ← get
  set (before.insert new)
  if before.conflicts new then throw (.prefixRootMismatch new.position)

/-- The set of some leaves, if no two of them differ at one position. -/
def LeafSet.ofLeaves (leaves : List PlacedLeaf) : Except VerificationError LeafSet := do
  let (_, set) ← Collect.fromEmpty (leaves.forM Collect.insert)
  return set

end KeyTransparency
