import KeyTransparency.Proofs.Tree.Batch

/-!
# How long a batch proof is

A batch proof has one hash for every largest subtree without any of the positions, so its length
follows from the size of the tree and the positions.  A proof of this length leads to some root
whatever its hashes are, and a proof of another length leads to none.
-/

namespace KeyTransparency.Tree

/-- The number of the largest subtrees of a tree of `size` leaves that have none of the
positions. -/
def batchLength (size : Nat) (positions : List Nat) : Nat :=
  if positions = [] then 1
  else if _h : size ≤ 1 then 0
  else
    batchLength (leftSize size) (leftPositions (leftSize size) positions) +
      batchLength (size - leftSize size) (rightPositions (leftSize size) positions)
termination_by size
decreasing_by
  all_goals
    have := leftSize_pos size
    have := leftSize_lt (show 1 < size by omega)
    omega

theorem batchLength_nil (size : Nat) : batchLength size [] = 1 := by
  rw [batchLength, if_pos rfl]

theorem batchLength_of_le_one {size : Nat} (hone : size ≤ 1) {positions : List Nat}
    (hsome : positions ≠ []) : batchLength size positions = 0 := by
  rw [batchLength, if_neg hsome, dif_pos hone]

theorem batchLength_of_two_le {size : Nat} (htwo : 2 ≤ size) {positions : List Nat}
    (hsome : positions ≠ []) :
    batchLength size positions =
      batchLength (leftSize size) (leftPositions (leftSize size) positions) +
        batchLength (size - leftSize size) (rightPositions (leftSize size) positions) := by
  rw [batchLength, if_neg hsome, dif_neg (by omega)]

theorem batchTree_of_two_le {size : Nat} (htwo : 2 ≤ size) (first : PlacedLeaf)
    (others : List PlacedLeaf) (proof : List Hash) :
    batchTree size (first :: others) proof =
      batchTree (leftSize size) (leftLeaves (leftSize size) (first :: others)) proof >>=
        fun left =>
          batchTree (size - leftSize size) (rightLeaves (leftSize size) (first :: others))
              left.2 >>=
            fun right => pure (.node left.1 right.1, right.2) := by
  rw [batchTree, dif_neg (by omega)]

/-- The computation takes as many hashes as there are subtrees to be given, if there are enough. -/
theorem exists_batchTree_of_length_le {size : Nat} {known : List PlacedLeaf} {proof : List Hash}
    (hlong : batchLength size (known.map (·.position)) ≤ proof.length) :
    ∃ tree, batchTree size known proof =
      .ok (tree, proof.drop (batchLength size (known.map (·.position)))) := by
  induction size using Nat.strongRecOn generalizing known proof with
  | ind size ih =>
    cases known with
    | nil =>
      rw [List.map_nil, batchLength_nil] at hlong ⊢
      cases proof with
      | nil => exact absurd hlong (by simp)
      | cons hash rest => exact ⟨.given hash, batchTree_nil size hash rest⟩
    | cons first others =>
      have hsome : (first :: others).map (·.position) ≠ [] := List.cons_ne_nil _ _
      by_cases hone : size ≤ 1
      · rw [batchLength_of_le_one hone hsome]
        exact ⟨.given first.leaf, batchTree_of_le_one hone first others proof⟩
      · have htwo : 2 ≤ size := by omega
        have hpos := leftSize_pos size
        rw [batchLength_of_two_le htwo hsome, ← map_position_leftLeaves,
          ← map_position_rightLeaves] at hlong ⊢
        obtain ⟨left, hleft⟩ := ih (leftSize size) (leftSize_lt htwo)
          (Nat.le_trans (Nat.le_add_right _ _) hlong)
        obtain ⟨right, hright⟩ := ih (size - leftSize size) (by omega)
          (show _ ≤ (proof.drop _).length by
            rw [List.length_drop]
            exact Nat.le_sub_of_add_le' hlong)
        refine ⟨.node left right, ?_⟩
        rw [batchTree_of_two_le htwo, hleft, ← List.drop_drop]
        simp only [bind, Except.bind, hright]
        rfl

/-- The computation fails if there are not enough hashes. -/
theorem batchTree_of_length_lt {size : Nat} {known : List PlacedLeaf} {proof : List Hash}
    (hshort : proof.length < batchLength size (known.map (·.position))) :
    batchTree size known proof = .error (.malformedProof .batchTooShort) := by
  induction size using Nat.strongRecOn generalizing known proof with
  | ind size ih =>
    cases known with
    | nil =>
      rw [List.map_nil, batchLength_nil] at hshort
      obtain rfl := List.eq_nil_of_length_eq_zero (Nat.lt_one_iff.mp hshort)
      unfold batchTree
      rfl
    | cons first others =>
      have hsome : (first :: others).map (·.position) ≠ [] := List.cons_ne_nil _ _
      by_cases hone : size ≤ 1
      · rw [batchLength_of_le_one hone hsome] at hshort
        exact absurd hshort (Nat.not_lt_zero _)
      · have htwo : 2 ≤ size := by omega
        have hpos := leftSize_pos size
        rw [batchLength_of_two_le htwo hsome, ← map_position_leftLeaves,
          ← map_position_rightLeaves] at hshort
        rw [batchTree_of_two_le htwo]
        -- the hashes run out in the left half or in the right one
        rcases Nat.lt_or_ge proof.length (batchLength (leftSize size)
            ((leftLeaves (leftSize size) (first :: others)).map (·.position))) with hless | hmore
        · rw [ih (leftSize size) (leftSize_lt htwo) hless]
          rfl
        · obtain ⟨left, hleft⟩ := exists_batchTree_of_length_le hmore
          have hrest := ih (size - leftSize size) (by omega)
            (show (proof.drop _).length < _ by
              rw [List.length_drop]
              exact Nat.sub_lt_left_of_lt_add hmore hshort)
          rw [hleft]
          simp only [bind, Except.bind, hrest]

variable {size : Nat} {positions : List Nat} {leaves proof : List Hash}

/-- The computation that a proof calls for, once positions and leaves are in order. -/
theorem batchTreeOf_eq (hchecked : checkPositions size positions = .ok ())
    (hlength : positions.length = leaves.length) :
    batchTreeOf size positions leaves proof =
      batchTree size (List.zipWith PlacedLeaf.mk positions leaves) proof >>= fun computed =>
        if computed.2 = [] then pure computed.1 else throw (.malformedProof .batchUnused) := by
  rw [batchTreeOf, hchecked, if_neg (not_not.mpr hlength)]
  rfl

/-- A proof of the right length leads to some root. -/
theorem exists_batchTreeOf (hchecked : checkPositions size positions = .ok ())
    (hlength : positions.length = leaves.length)
    (hproof : proof.length = batchLength size positions) :
    ∃ tree, batchTreeOf size positions leaves proof = .ok tree := by
  rw [← map_position_zipWith hlength] at hproof
  obtain ⟨tree, htree⟩ := exists_batchTree_of_length_le (Nat.le_of_eq hproof.symm)
  rw [batchTreeOf_eq hchecked hlength, htree, ← hproof, List.drop_length]
  exact ⟨tree, rfl⟩

theorem batchTreeOf_tooShort (hchecked : checkPositions size positions = .ok ())
    (hlength : positions.length = leaves.length)
    (hproof : proof.length < batchLength size positions) :
    batchTreeOf size positions leaves proof = .error (.malformedProof .batchTooShort) := by
  rw [← map_position_zipWith hlength] at hproof
  rw [batchTreeOf_eq hchecked hlength, batchTree_of_length_lt hproof]
  rfl

theorem batchTreeOf_unused (hchecked : checkPositions size positions = .ok ())
    (hlength : positions.length = leaves.length)
    (hproof : batchLength size positions < proof.length) :
    batchTreeOf size positions leaves proof = .error (.malformedProof .batchUnused) := by
  rw [← map_position_zipWith hlength] at hproof
  obtain ⟨tree, htree⟩ := exists_batchTree_of_length_le (Nat.le_of_lt hproof)
  rw [batchTreeOf_eq hchecked hlength, htree]
  refine if_neg fun hnone => ?_
  exact absurd (List.drop_eq_nil_iff.mp hnone) (Nat.not_le.mpr hproof)

/-- What is known of a proof that leads to a root. -/
theorem length_of_batchTreeOf {tree : HashTree}
    (h : batchTreeOf size positions leaves proof = .ok tree) :
    checkPositions size positions = .ok () ∧ proof.length = batchLength size positions := by
  obtain ⟨_, hchecked, -⟩ := bind_eq_ok_iff.mp h
  obtain ⟨-, hlength, -, -⟩ := placed_of_batchTreeOf h
  refine ⟨hchecked, ?_⟩
  rcases Nat.lt_trichotomy proof.length (batchLength size positions) with hshort | hsame | hlong
  · rw [batchTreeOf_tooShort hchecked hlength hshort] at h
    cases h
  · exact hsame
  · rw [batchTreeOf_unused hchecked hlength hlong] at h
    cases h

end KeyTransparency.Tree
