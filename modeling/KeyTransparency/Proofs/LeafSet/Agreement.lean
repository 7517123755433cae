import KeyTransparency.Proofs.LeafSet
import KeyTransparency.Proofs.Tree.Agreement
import KeyTransparency.Proofs.Tree.Shape

/-!
# Sets of leaves that one root accepts

Two sets of leaves at the same positions that are verified against one root are the same set, and so
are their proofs.  Where one set is verified, another set at its positions or another proof is
therefore refused, and the length of the proof decides how.
-/

namespace KeyTransparency

open KeyTransparency.Tree (PlacedLeaf Contains)

theorem Tree.PlacedLeaf.eq_of_parts_eq {leaf leaf' : PlacedLeaf}
    (hposition : leaf.position = leaf'.position) (hleaf : leaf.leaf = leaf'.leaf) :
    leaf = leaf' := by
  cases leaf
  cases leaf'
  cases hposition
  cases hleaf
  rfl

theorem eq_of_map_position_eq {leaves leaves' : List PlacedLeaf}
    (hpositions : leaves.map (·.position) = leaves'.map (·.position))
    (hagree : ∀ leaf ∈ leaves, ∀ leaf' ∈ leaves', leaf.position = leaf'.position → leaf = leaf') :
    leaves = leaves' := by
  induction leaves generalizing leaves' with
  | nil => exact (List.map_eq_nil_iff.mp hpositions.symm).symm
  | cons leaf rest ih =>
    cases leaves' with
    | nil => cases hpositions
    | cons leaf' rest' =>
      obtain ⟨hposition, hlater⟩ := List.cons.inj hpositions
      rw [hagree leaf List.mem_cons_self leaf' List.mem_cons_self hposition]
      refine congrArg (leaf' :: ·) (ih hlater ?_)
      intro next hnext next' hnext'
      exact hagree next (List.mem_cons_of_mem _ hnext) next' (List.mem_cons_of_mem _ hnext')

namespace LeafSet

/-- The positions of the leaves, in order. -/
def positions (set : LeafSet) : List Nat := set.leaves.map (·.position)

theorem eq_of_leaves_eq {set set' : LeafSet} (h : set.leaves = set'.leaves) : set = set' := by
  cases set
  cases set'
  cases h
  rfl

/-- A set has one leaf for each position. -/
theorem eq_of_position_eq {set : LeafSet} {leaf leaf' : PlacedLeaf} (hleaf : leaf ∈ set.leaves)
    (hleaf' : leaf' ∈ set.leaves) (hposition : leaf.position = leaf'.position) : leaf = leaf' := by
  have hat := (mem_leaves_iff set leaf).mp hleaf
  have hat' := (mem_leaves_iff set leaf').mp hleaf'
  rw [hposition, hat'] at hat
  exact PlacedLeaf.eq_of_parts_eq hposition (Option.some.inj hat).symm

/-- The set of some leaves at different positions has their positions in order. -/
theorem positions_eq_mergeSort {leaves : List PlacedLeaf} {set : LeafSet}
    (hdistinct : (leaves.map (·.position)).Nodup) (h : ofLeaves leaves = .ok set) :
    set.positions = (leaves.map (·.position)).mergeSort := by
  obtain ⟨found, hfound, hpositions⟩ := exists_ofLeaves hdistinct
  cases h.symm.trans hfound
  exact hpositions

/-- Leaves visited at the same positions that make up the same set are the same. -/
theorem eq_of_ofLeaves_eq {leaves leaves' : List PlacedLeaf} {set : LeafSet}
    (h : ofLeaves leaves = .ok set) (h' : ofLeaves leaves' = .ok set)
    (hpositions : leaves.map (·.position) = leaves'.map (·.position)) : leaves = leaves' := by
  apply eq_of_map_position_eq hpositions
  intro leaf hleaf leaf' hleaf'
  exact eq_of_position_eq ((mem_leaves_ofLeaves h leaf).mpr hleaf)
    ((mem_leaves_ofLeaves h' leaf').mpr hleaf')

variable {size : Nat} {root : Hash} {set set' : LeafSet} {proof proof' : List Hash}

/-! ## One root, one set -/

/-- A root that verifies sets of leaves at the same positions verifies one set with one proof. -/
theorem eq_of_verify {hashed : List Bytes} (hsafe : ¬Collision hashed)
    (h : set.verify size root proof = .ok ()) (h' : set'.verify size root proof' = .ok ())
    (hpositions : set.positions = set'.positions) (hmessages : set.messages size proof ⊆ hashed)
    (hmessages' : set'.messages size proof' ⊆ hashed) : set = set' ∧ proof = proof' := by
  have hsame : set = set' := by
    apply eq_of_leaves_eq
    apply eq_of_map_position_eq hpositions
    intro leaf hleaf leaf' hleaf' hposition
    have hin := (contains_of_verify h hleaf).mono hmessages
    have hin' := (contains_of_verify h' hleaf').mono hmessages'
    rw [hposition] at hin
    exact PlacedLeaf.eq_of_parts_eq hposition (hin.leaf_unique hsafe hin')
  subst hsame
  obtain ⟨tree, htree, hhash⟩ := verify_eq_ok_iff.mp h
  obtain ⟨tree', htree', hhash'⟩ := verify_eq_ok_iff.mp h'
  rw [messages, htree] at hmessages
  rw [messages, htree'] at hmessages'
  obtain ⟨-, -, -, hbatch⟩ := Tree.placed_of_batchTreeOf htree
  obtain ⟨-, -, -, hbatch'⟩ := Tree.placed_of_batchTreeOf htree'
  obtain ⟨used, hused, hused'⟩ := Tree.eq_append_of_batchTree hsafe hbatch hbatch'
    (hhash.trans hhash'.symm) hmessages hmessages'
  exact ⟨rfl, hused.trans hused'.symm⟩

/-! ## How a set is refused -/

/-- What a verified set shows about the positions and the length of the proof. -/
theorem length_of_verify (h : set.verify size root proof = .ok ()) :
    Tree.checkPositions size set.positions = .ok () ∧
      proof.length = Tree.batchLength size set.positions := by
  obtain ⟨tree, htree, -⟩ := verify_eq_ok_iff.mp h
  exact Tree.length_of_batchTreeOf htree

theorem length_positions (set : LeafSet) :
    set.positions.length = (set.leaves.map (·.leaf)).length := by
  simp [positions]

theorem verify_of_treeOf_eq_ok {tree : Tree.HashTree} (h : set.treeOf size proof = .ok tree) :
    set.verify size root proof =
      if tree.hash = root then .ok () else .error .inclusionMismatch := by
  unfold treeOf at h
  simp only [verify, Tree.evaluateBatch, h, bind, Except.bind, pure, Except.pure]

theorem verify_of_treeOf_eq_error {fault : ProofFault}
    (h : set.treeOf size proof = .error (.malformedProof fault)) :
    set.verify size root proof = .error (.malformedProof (.inclusion (.malformedProof fault))) := by
  unfold treeOf at h
  simp only [verify, Tree.evaluateBatch, h, bind, Except.bind]

/-- A proof of the right length that is not accepted leads to another root. -/
theorem verify_of_length_eq (hchecked : Tree.checkPositions size set.positions = .ok ())
    (hproof : proof.length = Tree.batchLength size set.positions)
    (hrefused : set.verify size root proof ≠ .ok ()) :
    set.verify size root proof = .error .inclusionMismatch := by
  obtain ⟨tree, htree⟩ := Tree.exists_batchTreeOf hchecked set.length_positions hproof
  rw [verify_of_treeOf_eq_ok htree] at hrefused ⊢
  exact if_neg fun hroot => hrefused (if_pos hroot)

/-- A proof of another length leads to no root. -/
theorem verify_of_length_ne (hchecked : Tree.checkPositions size set.positions = .ok ())
    (hproof : proof.length ≠ Tree.batchLength size set.positions) :
    set.verify size root proof =
      .error (.malformedProof (.inclusion (.malformedProof
        (if proof.length < Tree.batchLength size set.positions then .batchTooShort
          else .batchUnused)))) := by
  split
  · rename_i hshort
    exact verify_of_treeOf_eq_error
      (Tree.batchTreeOf_tooShort hchecked set.length_positions hshort)
  · rename_i hlong
    have hbelow := Nat.lt_of_le_of_ne (Nat.le_of_not_lt hlong) (Ne.symm hproof)
    exact verify_of_treeOf_eq_error
      (Tree.batchTreeOf_unused hchecked set.length_positions hbelow)

end LeafSet

end KeyTransparency
