import KeyTransparency.LeafSet
import KeyTransparency.Proofs.Tree.Consistency

/-!
# What an inclusion proof binds

A root that commits to a leaf at a position does so by the hashes on the way down to it.  `Contains`
states that such a way exists among some hashed byte strings.  Every leaf of an accepted batch proof
has one, a way is passed on from an old root to a new one by a consistency proof, and without a
collision two ways from one root to one position end in the same leaf.
-/

namespace KeyTransparency.Tree

/-- Hashed byte strings that lead from a root of `size` leaves down to the leaf at a position. -/
inductive Contains (messages : List Bytes) :
    (size : Nat) → (root : Hash) → (position : Nat) → (leaf : Hash) → Prop where
  | leaf (leaf : Hash) : Contains messages 1 leaf 0 leaf
  | left {size position : Nat} {root left right leaf : Hash} (htwo : 2 ≤ size)
      (hside : position < leftSize size) (hroot : root = nodeHash left right)
      (hmem : nodeMessage left right ∈ messages)
      (hleft : Contains messages (leftSize size) left position leaf) :
      Contains messages size root position leaf
  | right {size position : Nat} {root left right leaf : Hash} (htwo : 2 ≤ size)
      (hside : leftSize size ≤ position) (hroot : root = nodeHash left right)
      (hmem : nodeMessage left right ∈ messages)
      (hright : Contains messages (size - leftSize size) right (position - leftSize size) leaf) :
      Contains messages size root position leaf

namespace Contains

variable {messages : List Bytes} {size position : Nat} {root leaf : Hash}

theorem mono {more : List Bytes} (hsub : messages ⊆ more)
    (h : Contains messages size root position leaf) : Contains more size root position leaf := by
  induction h with
  | leaf leaf => exact .leaf leaf
  | left htwo hside hroot hmem _ ih => exact .left htwo hside hroot (hsub hmem) ih
  | right htwo hside hroot hmem _ ih => exact .right htwo hside hroot (hsub hmem) ih

theorem position_lt (h : Contains messages size root position leaf) : position < size := by
  induction h with
  | leaf leaf => exact Nat.one_pos
  | left htwo hside _ _ _ _ => exact Nat.lt_trans hside (leftSize_lt htwo)
  | right htwo hside _ _ _ ih =>
    have := leftSize_lt htwo
    omega

/-- A root commits to at most one leaf at a position. -/
theorem leaf_unique (hsafe : ¬Collision messages) {leaf' : Hash}
    (h : Contains messages size root position leaf)
    (h' : Contains messages size root position leaf') : leaf = leaf' := by
  induction h with
  | leaf leaf =>
    cases h' with
    | leaf => rfl
    | left htwo => omega
    | right htwo => omega
  | @left size position root left right leaf htwo hside hroot hmem _ ih =>
    cases h' with
    | leaf => omega
    | left _ _ hroot' hmem' hleft' =>
      have hsame := eq_of_ofMessage_eq hsafe hmem hmem' (hroot.symm.trans hroot')
      rw [← (nodeMessage_inj hsame).1] at hleft'
      exact ih hleft'
    | right _ hside' => omega
  | @right size position root left right leaf htwo hside hroot hmem _ ih =>
    cases h' with
    | leaf => omega
    | left _ hside' => omega
    | right _ _ hroot' hmem' hright' =>
      have hsame := eq_of_ofMessage_eq hsafe hmem hmem' (hroot.symm.trans hroot')
      rw [← (nodeMessage_inj hsame).2] at hright'
      exact ih hright'

end Contains

/-! ## The root of a list of leaves -/

/-- The root of a list of leaves commits to each of them. -/
theorem contains_root {leaves : List Hash} {position : Nat} {leaf : Hash}
    (h : leaves[position]? = some leaf) :
    Contains (ofLeaves leaves).messages leaves.length (root leaves) position leaf := by
  induction hsize : leaves.length using Nat.strongRecOn generalizing leaves position with
  | ind size ih =>
    subst hsize
    obtain ⟨hbound, -⟩ := List.getElem?_eq_some_iff.mp h
    by_cases htwo : 2 ≤ leaves.length
    · have hsmaller := leftSize_lt htwo
      have hhalf := leftSize_pos leaves.length
      obtain ⟨hpair, hleft, hright⟩ :=
        (ofLeaves_messages_subset_iff htwo).mp (List.Subset.refl _)
      by_cases hside : position < leftSize leaves.length
      · have hlength : (leaves.take (leftSize leaves.length)).length = leftSize leaves.length := by
          rw [List.length_take]
          omega
        have hin : (leaves.take (leftSize leaves.length))[position]? = some leaf := by
          rw [List.getElem?_take_of_lt hside, h]
        exact .left htwo hside (root_of_two_le htwo) hpair ((ih _ hsmaller hin hlength).mono hleft)
      · have hin : (leaves.drop (leftSize leaves.length))[position - leftSize leaves.length]? =
            some leaf := by
          rw [List.getElem?_drop, Nat.add_sub_cancel' (by omega), h]
        exact .right htwo (by omega) (root_of_two_le htwo) hpair
          ((ih _ (by omega) hin List.length_drop).mono hright)
    · obtain ⟨sole, rfl⟩ := List.length_eq_one_iff.mp (show leaves.length = 1 by omega)
      obtain rfl : position = 0 := by simpa using hbound
      cases h
      rw [root_singleton]
      exact .leaf leaf

/-- What the root of a list of leaves commits to is in the list. -/
theorem Contains.getElem?_eq {messages : List Bytes} (hsafe : ¬Collision messages)
    {size position : Nat} {treeRoot leaf : Hash}
    (h : Contains messages size treeRoot position leaf) {leaves : List Hash}
    (hlength : leaves.length = size) (hroot : treeRoot = root leaves)
    (hleaves : (ofLeaves leaves).messages ⊆ messages) : leaves[position]? = some leaf := by
  subst hlength hroot
  have hbound := h.position_lt
  have hthere := (contains_root (List.getElem?_eq_getElem hbound)).mono hleaves
  rw [List.getElem?_eq_getElem hbound, h.leaf_unique hsafe hthere]

/-! ## From an old root to a new one -/

/-- What an old root commits to, a root that extends it commits to as well. -/
theorem Extends.contains {messages : List Bytes} (hsafe : ¬Collision messages) {old size : Nat}
    {before after : HashTree} (h : Extends old size before after)
    (hbefore : before.messages ⊆ messages) (hafter : after.messages ⊆ messages) {position : Nat}
    {leaf : Hash} (hold : Contains messages old before.hash position leaf) :
    Contains messages size after.hash position leaf := by
  induction h generalizing position with
  | same size hash => exact hold
  | @left old size before after right hpos hnew hend _ ih =>
    obtain ⟨hpair, hafterLeft, -⟩ := HashTree.node_messages_subset_iff.mp hafter
    have hhalf := ih hbefore hafterLeft hold
    exact .left (by omega) (Nat.lt_of_lt_of_le hold.position_lt hend) rfl hpair hhalf
  | @right old size before after left hnew hend _ ih =>
    have hsplit := leftSize_eq_of_lt hend (Nat.le_of_lt hnew)
    have hpos := leftSize_pos size
    obtain ⟨hpairBefore, -, hbeforeRight⟩ := HashTree.node_messages_subset_iff.mp hbefore
    obtain ⟨hpairAfter, -, hafterRight⟩ := HashTree.node_messages_subset_iff.mp hafter
    cases hold with
    | leaf => omega
    | left htwo hside hroot hmem hleft =>
      -- the old root and the new one share their left halves
      have hsame := eq_of_ofMessage_eq hsafe hpairBefore hmem hroot
      rw [← (nodeMessage_inj hsame).1, hsplit] at hleft
      exact .left (by omega) (by omega) rfl hpairAfter hleft
    | right htwo hside hroot hmem hright =>
      have hsame := eq_of_ofMessage_eq hsafe hpairBefore hmem hroot
      rw [← (nodeMessage_inj hsame).2, hsplit] at hright
      have hhalf := ih hbeforeRight hafterRight hright
      exact .right (by omega) (by omega) rfl hpairAfter hhalf

/-! ## Batch proofs -/

/-- Leaves at increasing positions of a tree of `size` leaves. -/
structure Placed (size : Nat) (leaves : List PlacedLeaf) : Prop where
  increasing : leaves.Pairwise (·.position < ·.position)
  below : ∀ leaf ∈ leaves, leaf.position < size

theorem Placed.left {size : Nat} {leaves : List PlacedLeaf} (h : Placed size leaves) :
    Placed (leftSize size) (leftLeaves (leftSize size) leaves) where
  increasing := h.increasing.filter _
  below := by
    intro leaf hleaf
    simpa using (List.mem_filter.mp hleaf).2

theorem Placed.right {size : Nat} {leaves : List PlacedLeaf} (h : Placed size leaves) :
    Placed (size - leftSize size) (rightLeaves (leftSize size) leaves) where
  increasing := by
    refine List.pairwise_map.mpr ((h.increasing.filter _).imp_of_mem ?_)
    intro first second hfirst _ hlt
    have hge : leftSize size ≤ first.position := by
      simpa using (List.mem_filter.mp hfirst).2
    simp only
    omega
  below := by
    intro leaf hleaf
    obtain ⟨whole, hwhole, rfl⟩ := List.mem_map.mp hleaf
    obtain ⟨hmem, hge⟩ := List.mem_filter.mp hwhole
    have hlt := h.below whole hmem
    simp only [decide_eq_true_eq] at hge
    simp only
    omega

theorem checkPositions_eq_ok_iff {size : Nat} {positions : List Nat} :
    checkPositions size positions = .ok () ↔
      1 ≤ size ∧ positions.Pairwise (· < ·) ∧ ∀ position ∈ positions, position < size := by
  unfold checkPositions
  simp only [refuse_eq_ok_iff, refuse_last_eq_ok_iff, List.any_eq_true, decide_eq_true_eq]
  constructor
  · rintro ⟨hsize, hincreasing, hbelow, -⟩
    refine ⟨by omega, by simpa using hincreasing, ?_⟩
    intro position hposition
    by_contra hbeyond
    exact hbelow ⟨position, hposition, by omega⟩
  · rintro ⟨hsize, hincreasing, hbelow⟩
    refine ⟨by omega, by simpa using hincreasing, ?_, trivial⟩
    rintro ⟨position, hposition, hbeyond⟩
    have := hbelow position hposition
    omega

theorem map_position_zipWith {positions : List Nat} {leaves : List Hash}
    (h : positions.length = leaves.length) :
    (List.zipWith PlacedLeaf.mk positions leaves).map (·.position) = positions := by
  induction positions generalizing leaves with
  | nil => rfl
  | cons position positions ih =>
    cases leaves with
    | nil => simp at h
    | cons leaf leaves => simpa using ih (by simpa using h)

/-- What is known of positions and leaves from which a root was computed. -/
theorem placed_of_batchTreeOf {size : Nat} {positions : List Nat} {leaves proof : List Hash}
    {tree : HashTree} (h : batchTreeOf size positions leaves proof = .ok tree) :
    1 ≤ size ∧ positions.length = leaves.length ∧
      Placed size (List.zipWith PlacedLeaf.mk positions leaves) ∧
      batchTree size (List.zipWith PlacedLeaf.mk positions leaves) proof = .ok (tree, []) := by
  unfold batchTreeOf at h
  obtain ⟨_, hpositions, h⟩ := bind_eq_ok_iff.mp h
  obtain ⟨hsize, hincreasing, hbelow⟩ := checkPositions_eq_ok_iff.mp hpositions
  obtain ⟨hlength, h⟩ := refuse_eq_ok_iff.mp h
  obtain ⟨⟨computed, rest⟩, htree, h⟩ := bind_eq_ok_iff.mp h
  obtain ⟨hrest, rfl⟩ := require_eq_ok_iff.mp h
  have hmap := map_position_zipWith (not_not.mp hlength)
  refine ⟨hsize, not_not.mp hlength, ⟨?_, ?_⟩, hrest ▸ htree⟩
  · rw [← hmap] at hincreasing
    exact List.pairwise_map.mp hincreasing
  · intro leaf hleaf
    exact hbelow leaf.position (hmap ▸ List.mem_map_of_mem hleaf)

/-! ### One step of the computation -/

theorem batchTree_nil_eq_ok {size : Nat} {proof rest : List Hash} {tree : HashTree}
    (h : batchTree size [] proof = .ok (tree, rest)) :
    ∃ hash, tree = .given hash ∧ proof = hash :: rest := by
  unfold batchTree at h
  split at h
  · cases h
  · rename_i hash rest
    cases h
    exact ⟨hash, rfl, rfl⟩

theorem batchTree_leaf_eq_ok {size : Nat} (hone : size ≤ 1) {first : PlacedLeaf}
    {others : List PlacedLeaf} {proof rest : List Hash} {tree : HashTree}
    (h : batchTree size (first :: others) proof = .ok (tree, rest)) :
    tree = .given first.leaf ∧ proof = rest := by
  unfold batchTree at h
  rw [dif_pos hone] at h
  cases h
  exact ⟨rfl, rfl⟩

theorem batchTree_node_eq_ok {size : Nat} (htwo : 2 ≤ size) {first : PlacedLeaf}
    {others : List PlacedLeaf} {proof rest : List Hash} {tree : HashTree}
    (h : batchTree size (first :: others) proof = .ok (tree, rest)) :
    ∃ left between right,
      batchTree (leftSize size) (leftLeaves (leftSize size) (first :: others)) proof =
          .ok (left, between) ∧
        batchTree (size - leftSize size) (rightLeaves (leftSize size) (first :: others)) between =
          .ok (right, rest) ∧
        tree = .node left right := by
  unfold batchTree at h
  rw [dif_neg (by omega)] at h
  obtain ⟨⟨left, between⟩, hleft, h⟩ := bind_eq_ok_iff.mp h
  obtain ⟨⟨right, last⟩, hright, h⟩ := bind_eq_ok_iff.mp h
  cases h
  exact ⟨left, between, right, hleft, hright, rfl⟩

/-! ### The leaves of an accepted proof -/

/-- Every leaf from which a batch proof computes a root is contained in it. -/
theorem contains_of_batchTree {messages : List Bytes} {size : Nat} {known : List PlacedLeaf}
    {proof rest : List Hash} {tree : HashTree} (hknown : Placed size known)
    (h : batchTree size known proof = .ok (tree, rest)) (hmessages : tree.messages ⊆ messages)
    {leaf : PlacedLeaf} (hleaf : leaf ∈ known) :
    Contains messages size tree.hash leaf.position leaf.leaf := by
  induction size using Nat.strongRecOn generalizing known proof rest tree leaf with
  | ind size ih =>
    cases known with
    | nil => cases hleaf
    | cons first others =>
      have hfirst := hknown.below first List.mem_cons_self
      by_cases htwo : 2 ≤ size
      · have hsmaller := leftSize_lt htwo
        have hpos := leftSize_pos size
        obtain ⟨left, between, right, hleft, hright, rfl⟩ := batchTree_node_eq_ok htwo h
        obtain ⟨hmem, hmessagesLeft, hmessagesRight⟩ :=
          HashTree.node_messages_subset_iff.mp hmessages
        by_cases hside : leaf.position < leftSize size
        · have hin : leaf ∈ leftLeaves (leftSize size) (first :: others) :=
            List.mem_filter.mpr ⟨hleaf, by simpa using hside⟩
          have hhalf := ih (leftSize size) hsmaller hknown.left hleft hmessagesLeft hin
          exact .left htwo hside rfl hmem hhalf
        · have hge : leftSize size ≤ leaf.position := by omega
          have hin : ⟨leaf.position - leftSize size, leaf.leaf⟩ ∈
              rightLeaves (leftSize size) (first :: others) :=
            List.mem_map.mpr ⟨leaf, List.mem_filter.mpr ⟨hleaf, by simpa using hge⟩, rfl⟩
          have hhalf := ih (size - leftSize size) (by omega) hknown.right hright hmessagesRight hin
          exact .right htwo hge rfl hmem hhalf
      · obtain ⟨rfl, rfl⟩ := batchTree_leaf_eq_ok (by omega) h
        -- a tree of one leaf has no room for a second position
        have hone : size = 1 := by omega
        have hsole : leaf = first := by
          rcases List.mem_cons.mp hleaf with heq | hother
          · exact heq
          · have hlt := (List.pairwise_cons.mp hknown.increasing).1 leaf hother
            have hbelow := hknown.below leaf hleaf
            omega
        have hzero : first.position = 0 := by omega
        rw [hsole, hone, hzero]
        exact .leaf first.leaf

end KeyTransparency.Tree
