import KeyTransparency.Proofs.Tree.Inclusion
import KeyTransparency.Proofs.Tree.Storage

/-!
# Batch proofs that are made lead to the root

The batch proof for some positions of a list of leaves holds the roots of the parts without any of
them.  It is the proof that is read from the stored hashes, and from it and the leaves at the
positions the root of the list is computed.  The main statement joins the two: whatever is proven of
a size that the log has had verifies, also when the log has grown since.
-/

namespace KeyTransparency.Tree

/-- The roots of the largest parts of a tree over `leaves` that have none of the positions, from
left to right. -/
def batchHashes (positions : List Nat) (leaves : List Hash) : List Hash :=
  if positions = [] then [root leaves]
  else if _h : leaves.length ≤ 1 then []
  else
    batchHashes (leftPositions (leftSize leaves.length) positions)
        (leaves.take (leftSize leaves.length)) ++
      batchHashes (rightPositions (leftSize leaves.length) positions)
        (leaves.drop (leftSize leaves.length))
termination_by leaves.length
decreasing_by
  all_goals
    have positive := leftSize_pos leaves.length
    have smaller := leftSize_lt (show 2 ≤ leaves.length by omega)
    simp only [List.length_take, List.length_drop]
    omega

theorem batchHashes_nil (leaves : List Hash) : batchHashes [] leaves = [root leaves] := by
  rw [batchHashes, if_pos rfl]

theorem batchHashes_of_length_le_one {positions : List Nat} (hne : positions ≠ [])
    {leaves : List Hash} (hone : leaves.length ≤ 1) : batchHashes positions leaves = [] := by
  rw [batchHashes, if_neg hne, dif_pos hone]

theorem batchHashes_of_two_le {positions : List Nat} (hne : positions ≠ []) {leaves : List Hash}
    (htwo : 2 ≤ leaves.length) :
    batchHashes positions leaves =
      batchHashes (leftPositions (leftSize leaves.length) positions)
          (leaves.take (leftSize leaves.length)) ++
        batchHashes (rightPositions (leftSize leaves.length) positions)
          (leaves.drop (leftSize leaves.length)) := by
  rw [batchHashes, if_neg hne, dif_neg (by omega)]

/-! ## Reading the proof from the stored hashes -/

theorem Stores.finds_batchPlan_nil {stored : Array Hash} {leaves : List Hash}
    (h : Stores stored leaves) {start : Nat} {sub : List Hash}
    (haligned : Aligned start sub.length) (hend : start + sub.length ≤ leaves.length)
    (hsub : part leaves start sub.length = sub) :
    (batchPlan start sub.length []).Finds stored (batchHashes [] sub) := by
  have hrange := (h.finds_rangeHash haligned hend).map fun hash => [hash]
  rw [hsub] at hrange
  rw [batchPlan, if_pos rfl, batchHashes_nil]
  exact hrange

theorem Stores.finds_batchPlan {stored : Array Hash} {leaves : List Hash}
    (h : Stores stored leaves) {start : Nat} {positions : List Nat} {sub : List Hash}
    (haligned : Aligned start sub.length) (hend : start + sub.length ≤ leaves.length)
    (hsub : part leaves start sub.length = sub) :
    (batchPlan start sub.length positions).Finds stored (batchHashes positions sub) := by
  induction sub using halves_induction generalizing start positions with
  | small sub hone =>
    by_cases hnone : positions = []
    · subst hnone
      exact h.finds_batchPlan_nil haligned hend hsub
    · rw [batchPlan, if_neg hnone, dif_pos hone, batchHashes_of_length_le_one hnone hone]
      exact Plan.finds_pure stored []
  | halves sub htwo ihLeft ihRight =>
    by_cases hnone : positions = []
    · subst hnone
      exact h.finds_batchPlan_nil haligned hend hsub
    · have hsmaller := leftSize_lt htwo
      rw [length_take_leftSize htwo] at ihLeft
      rw [List.length_drop] at ihRight
      have hpartLeft : part leaves start (leftSize sub.length) =
          sub.take (leftSize sub.length) := by
        rw [← take_part (Nat.le_of_lt hsmaller), hsub]
      have hpartRight : part leaves (start + leftSize sub.length)
          (sub.length - leftSize sub.length) = sub.drop (leftSize sub.length) := by
        rw [← drop_part, hsub]
      have hleft := @ihLeft start (leftPositions (leftSize sub.length) positions)
        (haligned.left htwo) (by omega) hpartLeft
      have hright := @ihRight (start + leftSize sub.length)
        (rightPositions (leftSize sub.length) positions) (haligned.right htwo) (by omega)
        hpartRight
      rw [batchPlan, if_neg hnone, dif_neg (by omega), batchHashes_of_two_le hnone htwo]
      exact (hleft.both hright).map _

/-- The batch proof that is made for positions in the first leaves of a log whose hashes are
stored. -/
theorem Stores.proveBatch_eq_ok {stored : Array Hash} {leaves : List Hash}
    (h : Stores stored leaves) {size : Nat} {positions : List Nat} (hpos : 1 ≤ size)
    (hsize : size ≤ leaves.length) (hincreasing : positions.Pairwise (· < ·))
    (hbelow : ∀ position ∈ positions, position < size) :
    proveBatch size positions (.ofStored stored) =
      .ok (batchHashes positions (leaves.take size)) := by
  have hlength : (leaves.take size).length = size := by
    rw [List.length_take, Nat.min_eq_left hsize]
  have hchecked := checkPositions_eq_ok_iff.mpr ⟨hpos, hincreasing, hbelow⟩
  have hfinds := @Stores.finds_batchPlan _ _ h 0 positions (leaves.take size) (.zero _)
    (by omega) (by rw [part_zero, hlength])
  rw [hlength] at hfinds
  rw [proveBatch, hchecked]
  exact hfinds.run

/-! ## Evaluating the proof -/

/-- Leaves of a list, each at its position. -/
def PlacedIn (leaves : List Hash) (known : List PlacedLeaf) : Prop :=
  ∀ leaf ∈ known, leaves[leaf.position]? = some leaf.leaf

namespace PlacedIn

variable {leaves : List Hash} {known : List PlacedLeaf}

theorem position_lt (h : PlacedIn leaves known) {leaf : PlacedLeaf} (hleaf : leaf ∈ known) :
    leaf.position < leaves.length :=
  (List.getElem?_eq_some_iff.mp (h leaf hleaf)).1

theorem left (h : PlacedIn leaves known) (division : Nat) :
    PlacedIn (leaves.take division) (leftLeaves division known) := by
  intro leaf hleaf
  obtain ⟨hmem, hbefore⟩ := List.mem_filter.mp hleaf
  rw [List.getElem?_take_of_lt (of_decide_eq_true hbefore), h leaf hmem]

theorem right (h : PlacedIn leaves known) (division : Nat) :
    PlacedIn (leaves.drop division) (rightLeaves division known) := by
  intro leaf hleaf
  obtain ⟨whole, hwhole, rfl⟩ := List.mem_map.mp hleaf
  obtain ⟨hmem, hafter⟩ := List.mem_filter.mp hwhole
  rw [List.getElem?_drop, Nat.add_sub_cancel' (of_decide_eq_true hafter), h whole hmem]

end PlacedIn

theorem map_position_leftLeaves (division : Nat) (known : List PlacedLeaf) :
    (leftLeaves division known).map (·.position) =
      leftPositions division (known.map (·.position)) := by
  rw [leftLeaves, leftPositions, List.filter_map]
  rfl

theorem map_position_rightLeaves (division : Nat) (known : List PlacedLeaf) :
    (rightLeaves division known).map (·.position) =
      rightPositions division (known.map (·.position)) := by
  rw [rightLeaves, rightPositions, List.filter_map, List.map_map, List.map_map]
  rfl

theorem batchTree_nil (size : Nat) (hash : Hash) (rest : List Hash) :
    batchTree size [] (hash :: rest) = .ok (.given hash, rest) := by
  unfold batchTree
  rfl

theorem batchTree_of_le_one {size : Nat} (hone : size ≤ 1) (first : PlacedLeaf)
    (others : List PlacedLeaf) (proof : List Hash) :
    batchTree size (first :: others) proof = .ok (.given first.leaf, proof) := by
  unfold batchTree
  exact dif_pos hone

theorem batchTree_of_halves {size : Nat} (htwo : 2 ≤ size) {first : PlacedLeaf}
    {others : List PlacedLeaf} {proof between rest : List Hash} {left right : HashTree}
    (hleft : batchTree (leftSize size) (leftLeaves (leftSize size) (first :: others)) proof =
      .ok (left, between))
    (hright : batchTree (size - leftSize size) (rightLeaves (leftSize size) (first :: others))
      between = .ok (right, rest)) :
    batchTree size (first :: others) proof = .ok (.node left right, rest) := by
  unfold batchTree
  rw [dif_neg (by omega)]
  exact bind_eq_ok_iff.mpr ⟨_, hleft, bind_eq_ok_iff.mpr ⟨_, hright, rfl⟩⟩

/-- From the known leaves and the roots of the parts without any of them, the root of the list is
computed. -/
theorem batchTree_batchHashes {leaves : List Hash} {known : List PlacedLeaf}
    (h : PlacedIn leaves known) (rest : List Hash) :
    ∃ tree, batchTree leaves.length known
        (batchHashes (known.map (·.position)) leaves ++ rest) = .ok (tree, rest) ∧
      tree.hash = root leaves := by
  induction leaves using halves_induction generalizing known rest with
  | small leaves hone =>
    cases known with
    | nil =>
      rw [List.map_nil, batchHashes_nil]
      exact ⟨.given (root leaves), batchTree_nil _ _ _, rfl⟩
    | cons first others =>
      have hsome : (first :: others).map (·.position) ≠ [] := List.cons_ne_nil _ _
      rw [batchHashes_of_length_le_one hsome hone]
      refine ⟨.given first.leaf, batchTree_of_le_one hone first others _, ?_⟩
      have hbound := h.position_lt List.mem_cons_self
      obtain ⟨sole, rfl⟩ := List.length_eq_one_iff.mp (show leaves.length = 1 by omega)
      have hfirst := h first List.mem_cons_self
      have hzero : first.position = 0 := by simpa using hbound
      rw [hzero] at hfirst
      cases hfirst
      rw [root_singleton]
      rfl
  | halves leaves htwo ihLeft ihRight =>
    cases known with
    | nil =>
      rw [List.map_nil, batchHashes_nil]
      exact ⟨.given (root leaves), batchTree_nil _ _ _, rfl⟩
    | cons first others =>
      rw [length_take_leftSize htwo] at ihLeft
      rw [List.length_drop] at ihRight
      obtain ⟨right, hright, hrightHash⟩ := ihRight (h.right _) rest
      obtain ⟨left, hleft, hleftHash⟩ := ihLeft (h.left _)
        (batchHashes (rightPositions (leftSize leaves.length)
          ((first :: others).map (·.position))) (leaves.drop (leftSize leaves.length)) ++ rest)
      rw [map_position_leftLeaves] at hleft
      rw [map_position_rightLeaves] at hright
      have hsome : (first :: others).map (·.position) ≠ [] := List.cons_ne_nil _ _
      refine ⟨.node left right, ?_, ?_⟩
      · rw [batchHashes_of_two_le hsome htwo, List.append_assoc]
        exact batchTree_of_halves htwo hleft hright
      · rw [HashTree.hash, hleftHash, hrightHash, root_of_two_le htwo]

/-- The proof that is made leads from leaves at increasing positions to the root of the list. -/
theorem batchTreeOf_batchHashes {leaves : List Hash} {known : List PlacedLeaf}
    (h : PlacedIn leaves known) (hpos : 1 ≤ leaves.length)
    (hincreasing : (known.map (·.position)).Pairwise (· < ·)) :
    ∃ tree, batchTreeOf leaves.length (known.map (·.position)) (known.map (·.leaf))
        (batchHashes (known.map (·.position)) leaves) = .ok tree ∧ tree.hash = root leaves := by
  have hbelow : ∀ position ∈ known.map (·.position), position < leaves.length := by
    intro position hposition
    obtain ⟨leaf, hleaf, rfl⟩ := List.mem_map.mp hposition
    exact h.position_lt hleaf
  have hchecked := checkPositions_eq_ok_iff.mpr ⟨hpos, hincreasing, hbelow⟩
  obtain ⟨tree, htree, hhash⟩ := batchTree_batchHashes h []
  rw [List.append_nil] at htree
  have hzip : List.zipWith PlacedLeaf.mk (known.map (·.position)) (known.map (·.leaf)) = known := by
    simp
  refine ⟨tree, ?_, hhash⟩
  unfold batchTreeOf
  refine bind_eq_ok_iff.mpr ⟨(), hchecked, refuse_eq_ok_iff.mpr ⟨by simp, ?_⟩⟩
  rw [hzip]
  exact bind_eq_ok_iff.mpr ⟨_, htree, rfl⟩

/-! ## The proof that is made verifies -/

/-- The leaves at the given positions of a list. -/
def leavesAt (leaves : List Hash) (positions : List Nat) : List Hash :=
  positions.filterMap (leaves[·]?)

theorem leavesAt_cons {leaves : List Hash} {position : Nat} {leaf : Hash}
    (h : leaves[position]? = some leaf) (positions : List Nat) :
    leavesAt leaves (position :: positions) = leaf :: leavesAt leaves positions :=
  List.filterMap_cons_some h

theorem exists_placedIn {leaves : List Hash} {size : Nat} (hsize : size ≤ leaves.length)
    {positions : List Nat} (hbelow : ∀ position ∈ positions, position < size) :
    ∃ known, PlacedIn (leaves.take size) known ∧ known.map (·.position) = positions ∧
      known.map (·.leaf) = leavesAt leaves positions := by
  induction positions with
  | nil => exact ⟨[], List.forall_mem_nil _, rfl, rfl⟩
  | cons position positions ih =>
    obtain ⟨hposition, hpositions⟩ := List.forall_mem_cons.mp hbelow
    obtain ⟨known, hplaced, hmap, hleaves⟩ := ih hpositions
    have hthere : leaves[position]? = some leaves[position] :=
      List.getElem?_eq_getElem (Nat.lt_of_lt_of_le hposition hsize)
    refine ⟨⟨position, leaves[position]⟩ :: known, ?_, ?_, ?_⟩
    · refine List.forall_mem_cons.mpr ⟨?_, hplaced⟩
      rw [List.getElem?_take_of_lt hposition, hthere]
    · rw [List.map_cons, hmap]
    · rw [List.map_cons, hleaves, leavesAt_cons hthere]

/-- For increasing positions within a size that the log has had, a proof can be made from the stored
hashes, and it leads from the leaves at these positions to the root of that size. -/
theorem evaluateBatch_proveBatch {leaves : List Hash} {size : Nat} {positions : List Nat}
    (hpos : 1 ≤ size) (hsize : size ≤ leaves.length) (hincreasing : positions.Pairwise (· < ·))
    (hbelow : ∀ position ∈ positions, position < size) :
    ∃ stored proof, storedHashes leaves = .ok stored ∧
      proveBatch size positions (.ofStored stored) = .ok proof ∧
      evaluateBatch size positions (leavesAt leaves positions) proof =
        .ok (root (leaves.take size)) := by
  obtain ⟨stored, hstored, hstores⟩ := exists_stores_storedHashes leaves
  obtain ⟨known, hplaced, hpositions, hleaves⟩ := exists_placedIn hsize hbelow
  have hlength : (leaves.take size).length = size := by
    rw [List.length_take, Nat.min_eq_left hsize]
  obtain ⟨tree, htree, hhash⟩ :=
    batchTreeOf_batchHashes hplaced (hlength.symm ▸ hpos) (hpositions.symm ▸ hincreasing)
  rw [hlength, hpositions, hleaves] at htree
  refine ⟨stored, _, hstored, hstores.proveBatch_eq_ok hpos hsize hincreasing hbelow, ?_⟩
  exact bind_eq_ok_iff.mpr ⟨tree, htree, congrArg Except.ok hhash⟩

/-- The second and the third leaf are proven to a tree of four leaves, the log having grown to
five. -/
theorem evaluateBatch_second_third_of_four :
    1 ≤ 4 ∧ 4 ≤ fiveLeaves.length ∧ [1, 2].Pairwise (· < ·) ∧ (∀ position ∈ [1, 2], position < 4) ∧
      ∃ stored proof, storedHashes fiveLeaves = .ok stored ∧
        proveBatch 4 [1, 2] (.ofStored stored) = .ok proof ∧
        evaluateBatch 4 [1, 2] (leavesAt fiveLeaves [1, 2]) proof =
          .ok (root (fiveLeaves.take 4)) := by
  have hpos : 1 ≤ 4 := by decide
  have hsize : 4 ≤ fiveLeaves.length := by decide
  have hincreasing : [1, 2].Pairwise (· < ·) := by decide
  have hbelow : ∀ position ∈ [1, 2], position < 4 := by decide
  exact ⟨hpos, hsize, hincreasing, hbelow,
    evaluateBatch_proveBatch hpos hsize hincreasing hbelow⟩

end KeyTransparency.Tree
