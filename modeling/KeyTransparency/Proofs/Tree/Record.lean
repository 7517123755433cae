import KeyTransparency.Proofs.Tree.Inclusion
import KeyTransparency.Proofs.Tree.Storage
import KeyTransparency.Tree.Record

/-!
# Audit paths accept the leaf of the log only

The ranges beside the way down to a leaf make up the tree without the leaf.  Their roots are the
audit path that is read from the stored hashes, it is accepted for the leaf, and nothing else is
accepted.  `WayDown` is the way, and each of these facts is shown by induction on it.
-/

namespace KeyTransparency.Tree

/-- The way from the root of a tree of `size` leaves down to leaf `n`. -/
inductive WayDown : (size n : Nat) → Prop where
  | leaf : WayDown 1 0
  | left {size n : Nat} (htwo : 2 ≤ size) (hside : n < leftSize size)
      (hleft : WayDown (leftSize size) n) : WayDown size n
  | right {size n : Nat} (htwo : 2 ≤ size) (hside : leftSize size ≤ n)
      (hright : WayDown (size - leftSize size) (n - leftSize size)) : WayDown size n

theorem wayDown {size n : Nat} (h : n < size) : WayDown size n := by
  induction size using Nat.strongRecOn generalizing n with
  | ind size ih =>
    by_cases htwo : 2 ≤ size
    · have hsmaller := leftSize_lt htwo
      have hpos := leftSize_pos size
      by_cases hside : n < leftSize size
      · exact .left htwo hside (ih _ hsmaller hside)
      · exact .right htwo (by omega) (ih _ (by omega) (by omega))
    · obtain rfl : size = 1 := by omega
      obtain rfl : n = 0 := by omega
      exact .leaf

/-! ## The ranges beside the way -/

/-- The positions of the leaves of a range. -/
def LeafRange.positions (range : LeafRange) : List Nat :=
  List.range' range.start (range.stop - range.start)

theorem range'_eq_halves (start : Nat) {size : Nat} (htwo : 2 ≤ size) :
    List.range' start size =
      List.range' start (leftSize size) ++
        List.range' (start + leftSize size) (size - leftSize size) := by
  rw [List.range'_append_1, Nat.add_sub_cancel' (Nat.le_of_lt (leftSize_lt htwo))]

theorem siblingRanges_leaf (start : Nat) : siblingRanges start 1 0 = [] := by
  rw [siblingRanges, dif_pos (Nat.le_refl 1)]

theorem siblingRanges_left (start : Nat) {size n : Nat} (htwo : 2 ≤ size)
    (hside : n < leftSize size) :
    siblingRanges start size n =
      siblingRanges start (leftSize size) n ++ [⟨start + leftSize size, start + size⟩] := by
  rw [siblingRanges, dif_neg (by omega), if_pos hside]

theorem siblingRanges_right (start : Nat) {size n : Nat} (htwo : 2 ≤ size)
    (hside : leftSize size ≤ n) :
    siblingRanges start size n =
      siblingRanges (start + leftSize size) (size - leftSize size) (n - leftSize size) ++
        [⟨start, start + leftSize size⟩] := by
  rw [siblingRanges, dif_neg (by omega), if_neg (by omega)]

theorem map_rootIn_left (leaves : List Hash) (start : Nat) {size n : Nat} (htwo : 2 ≤ size)
    (hside : n < leftSize size) :
    (siblingRanges start size n).map (LeafRange.rootIn leaves) =
      (siblingRanges start (leftSize size) n).map (LeafRange.rootIn leaves) ++
        [root (part leaves (start + leftSize size) (size - leftSize size))] := by
  rw [siblingRanges_left start htwo hside, List.map_append, List.map_singleton, LeafRange.rootIn,
    Nat.add_sub_add_left]

theorem map_rootIn_right (leaves : List Hash) (start : Nat) {size n : Nat} (htwo : 2 ≤ size)
    (hside : leftSize size ≤ n) :
    (siblingRanges start size n).map (LeafRange.rootIn leaves) =
      (siblingRanges (start + leftSize size) (size - leftSize size) (n - leftSize size)).map
          (LeafRange.rootIn leaves) ++
        [root (part leaves start (leftSize size))] := by
  rw [siblingRanges_right start htwo hside, List.map_append, List.map_singleton, LeafRange.rootIn,
    Nat.add_sub_cancel_left]

namespace WayDown

variable {size n : Nat}

/-- The ranges lie within the tree, and none of them is empty. -/
theorem bounds_of_mem (h : WayDown size n) {start : Nat} {range : LeafRange}
    (hrange : range ∈ siblingRanges start size n) :
    start ≤ range.start ∧ range.start < range.stop ∧ range.stop ≤ start + size := by
  induction h generalizing start with
  | leaf =>
    rw [siblingRanges_leaf] at hrange
    cases hrange
  | @left size n htwo hside _ ih =>
    have hsmaller := leftSize_lt htwo
    rw [siblingRanges_left start htwo hside] at hrange
    rcases List.mem_append.mp hrange with hbelow | hbeside
    · have := ih hbelow
      omega
    · obtain rfl := List.mem_singleton.mp hbeside
      simp only
      omega
  | @right size n htwo hside _ ih =>
    have hsmaller := leftSize_lt htwo
    have hpos := leftSize_pos size
    rw [siblingRanges_right start htwo hside] at hrange
    rcases List.mem_append.mp hrange with hbelow | hbeside
    · have := ih hbelow
      omega
    · obtain rfl := List.mem_singleton.mp hbeside
      simp only
      omega

/-- The ranges and the leaf have every position of the tree once. -/
theorem perm_positions (h : WayDown size n) (start : Nat) :
    ((siblingRanges start size n).flatMap LeafRange.positions ++ [start + n]).Perm
      (List.range' start size) := by
  induction h generalizing start with
  | leaf =>
    rw [siblingRanges_leaf]
    exact .refl _
  | @left size n htwo hside _ ih =>
    have hbeside : LeafRange.positions ⟨start + leftSize size, start + size⟩ =
        List.range' (start + leftSize size) (size - leftSize size) := by
      rw [LeafRange.positions, Nat.add_sub_add_left]
    rw [siblingRanges_left start htwo hside, List.flatMap_append, List.flatMap_singleton, hbeside,
      range'_eq_halves start htwo, List.append_assoc]
    exact (List.perm_append_comm.append_left _).trans
      (List.append_assoc _ _ _ ▸ (ih start).append_right _)
  | @right size n htwo hside _ ih =>
    have hbeside : LeafRange.positions ⟨start, start + leftSize size⟩ =
        List.range' start (leftSize size) := by
      rw [LeafRange.positions, Nat.add_sub_cancel_left]
    have hleaf : start + n = start + leftSize size + (n - leftSize size) := by omega
    rw [siblingRanges_right start htwo hside, List.flatMap_append, List.flatMap_singleton, hbeside,
      range'_eq_halves start htwo, hleaf]
    exact (List.perm_append_comm.append_right _).trans
      (List.append_assoc _ _ _ ▸ (ih (start + leftSize size)).append_left _)

/-- The roots of the ranges are found among the stored hashes. -/
theorem finds_auditPlan (h : WayDown size n) {stored : Array Hash} {leaves : List Hash}
    (hstores : Stores stored leaves) {start : Nat} (haligned : Aligned start size)
    (hend : start + size ≤ leaves.length) :
    (auditPlan start size n).Finds stored
      ((siblingRanges start size n).map (LeafRange.rootIn leaves)) := by
  induction h generalizing start with
  | leaf =>
    rw [siblingRanges_leaf, auditPlan, dif_pos (Nat.le_refl 1)]
    exact Plan.finds_pure stored []
  | @left size n htwo hside _ ih =>
    have hsmaller := leftSize_lt htwo
    have hleft := ih (haligned.left htwo) (by omega)
    have hright := hstores.finds_rangeHash (haligned.right htwo) (by omega)
    rw [map_rootIn_left leaves start htwo hside, auditPlan, dif_neg (by omega), if_pos hside]
    exact (hleft.both hright).map _
  | @right size n htwo hside _ ih =>
    have hsmaller := leftSize_lt htwo
    have hleft := hstores.finds_rangeHash (haligned.left htwo) (by omega)
    have hright := ih (haligned.right htwo) (by omega)
    rw [map_rootIn_right leaves start htwo hside, auditPlan, dif_neg (by omega),
      if_neg (by omega)]
    exact (hleft.both hright).map _

end WayDown

/-- The audit path that is made for a leaf of a log whose hashes are stored. -/
theorem Stores.proveRecord_eq_ok {stored : Array Hash} {leaves : List Hash}
    (h : Stores stored leaves) {size n : Nat} (hn : n < size) (hsize : size ≤ leaves.length) :
    proveRecord size n (.ofStored stored) =
      .ok ((siblingRanges 0 size n).map (LeafRange.rootIn leaves)) := by
  rw [proveRecord, if_neg (Nat.not_le.mpr hn)]
  exact ((wayDown hn).finds_auditPlan h (.zero size) (by omega)).run

/-! ## The computation along the way -/

theorem auditTree_nil (leaf : Hash) : auditTree leaf [] 1 0 = .ok (.given leaf) := by
  rw [auditTree, if_pos (Nat.le_refl 1)]

theorem auditTree_left (leaf sibling : Hash) (path : List Hash) {size n : Nat} (htwo : 2 ≤ size)
    (hside : n < leftSize size) :
    auditTree leaf (sibling :: path) size n =
      auditTree leaf path (leftSize size) n >>= fun tree => pure (.node tree (.given sibling)) := by
  rw [auditTree, if_neg (by omega), if_pos hside]

theorem auditTree_right (leaf sibling : Hash) (path : List Hash) {size n : Nat} (htwo : 2 ≤ size)
    (hside : leftSize size ≤ n) :
    auditTree leaf (sibling :: path) size n =
      auditTree leaf path (size - leftSize size) (n - leftSize size) >>=
        fun tree => pure (.node (.given sibling) tree) := by
  rw [auditTree, if_neg (by omega), if_neg (by omega)]

namespace WayDown

variable {size n : Nat} {leaf : Hash} {leaves : List Hash} {start : Nat}

/-- From the leaf and the roots beside the way, the root of the tree is computed. -/
theorem auditTree_rootIn (h : WayDown size n) (hend : start + size ≤ leaves.length)
    (hleaf : leaves[start + n]? = some leaf) :
    ∃ tree, auditTree leaf ((siblingRanges start size n).map (LeafRange.rootIn leaves)).reverse
        size n = .ok tree ∧ tree.hash = root (part leaves start size) := by
  induction h generalizing start with
  | leaf =>
    rw [Nat.add_zero] at hleaf
    refine ⟨.given leaf, ?_, ?_⟩
    · rw [siblingRanges_leaf]
      exact auditTree_nil leaf
    · rw [part_one hleaf, root_singleton]
      rfl
  | @left size n htwo hside _ ih =>
    have hsmaller := leftSize_lt htwo
    obtain ⟨tree, htree, hhash⟩ := ih (by omega) hleaf
    refine ⟨.node tree (.given (root (part leaves (start + leftSize size)
      (size - leftSize size)))), ?_, ?_⟩
    · rw [map_rootIn_left leaves start htwo hside, List.reverse_append, List.reverse_singleton,
        List.singleton_append, auditTree_left leaf _ _ htwo hside, htree]
      rfl
    · rw [HashTree.hash, hhash, root_part hend htwo]
      rfl
  | @right size n htwo hside _ ih =>
    have hsmaller := leftSize_lt htwo
    have hplace : start + n = start + leftSize size + (n - leftSize size) := by omega
    obtain ⟨tree, htree, hhash⟩ := ih (by omega) (hplace ▸ hleaf)
    refine ⟨.node (.given (root (part leaves start (leftSize size)))) tree, ?_, ?_⟩
    · rw [map_rootIn_right leaves start htwo hside, List.reverse_append, List.reverse_singleton,
        List.singleton_append, auditTree_right leaf _ _ htwo hside, htree]
      rfl
    · rw [HashTree.hash, hhash, root_part hend htwo]
      rfl

/-- No other leaf and no other path lead to the root of the tree. -/
theorem eq_of_auditTree {messages : List Bytes} (hsafe : ¬Collision messages) (h : WayDown size n)
    (hend : start + size ≤ leaves.length) {path : List Hash} {tree : HashTree}
    (htree : auditTree leaf path size n = .ok tree)
    (hroot : tree.hash = root (part leaves start size)) (hmessages : tree.messages ⊆ messages)
    (hleaves : (ofLeaves (part leaves start size)).messages ⊆ messages) :
    leaves[start + n]? = some leaf ∧
      path = ((siblingRanges start size n).map (LeafRange.rootIn leaves)).reverse := by
  induction h generalizing start path tree with
  | leaf =>
    have hthere : leaves[start]? = some leaves[start] := List.getElem?_eq_getElem (by omega)
    rw [part_one hthere, root_singleton] at hroot
    rw [siblingRanges_leaf]
    cases path with
    | nil =>
      cases (auditTree_nil leaf).symm.trans htree
      exact ⟨hthere.trans (congrArg some hroot.symm), rfl⟩
    | cons sibling path =>
      rw [auditTree, if_pos (Nat.le_refl 1)] at htree
      cases htree
  | @left size n htwo hside _ ih =>
    have hsmaller := leftSize_lt htwo
    cases path with
    | nil =>
      rw [auditTree, if_neg (by omega)] at htree
      cases htree
    | cons sibling path =>
      rw [auditTree_left leaf sibling path htwo hside] at htree
      obtain ⟨below, hbelow, htree⟩ := bind_eq_ok_iff.mp htree
      cases htree
      obtain ⟨⟨hhash, hbelowMessages, hhalf⟩, hsibling, -⟩ :=
        halves_of_hash_eq_root_part hsafe hend htwo hroot hmessages hleaves
      obtain ⟨hleaf, hpath⟩ := ih (by omega) hbelow hhash hbelowMessages hhalf
      refine ⟨hleaf, ?_⟩
      rw [map_rootIn_left leaves start htwo hside, List.reverse_append, ← hpath, ← hsibling]
      rfl
  | @right size n htwo hside _ ih =>
    have hsmaller := leftSize_lt htwo
    cases path with
    | nil =>
      rw [auditTree, if_neg (by omega)] at htree
      cases htree
    | cons sibling path =>
      rw [auditTree_right leaf sibling path htwo hside] at htree
      obtain ⟨below, hbelow, htree⟩ := bind_eq_ok_iff.mp htree
      cases htree
      obtain ⟨⟨hsibling, -⟩, hhash, hbelowMessages, hhalf⟩ :=
        halves_of_hash_eq_root_part hsafe hend htwo hroot hmessages hleaves
      obtain ⟨hleaf, hpath⟩ := ih (by omega) hbelow hhash hbelowMessages hhalf
      have hplace : start + leftSize size + (n - leftSize size) = start + n := by omega
      refine ⟨hplace ▸ hleaf, ?_⟩
      rw [map_rootIn_right leaves start htwo hside, List.reverse_append, ← hpath, ← hsibling]
      rfl

end WayDown

/-! ## The accepted paths -/

/-- An audit path is accepted exactly if it leads to the root. -/
theorem checkRecord_eq_ok_iff {proof : List Hash} {size n : Nat} {treeRoot leaf : Hash} :
    checkRecord proof size treeRoot n leaf = .ok () ↔
      n < size ∧ ∃ tree, auditTree leaf proof.reverse size n = .ok tree ∧
        tree.hash = treeRoot := by
  unfold checkRecord
  rw [refuse_eq_ok_iff, bind_eq_ok_iff, Nat.not_le]
  simp only [require_eq_ok_iff, and_true]

/-- The byte strings that are hashed when an audit path is checked.  A path of a wrong length is
refused before anything is hashed. -/
def recordMessages (proof : List Hash) (size n : Nat) (leaf : Hash) : List Bytes :=
  match auditTree leaf proof.reverse size n with
  | .ok tree => tree.messages
  | .error _ => []

/-- In a tree over some leaves, the ranges beside a leaf make up the tree without the leaf.  The
audit path that is read from the stored hashes has their roots in the same order.  It is accepted
for the leaf, and no other path or leaf is, or two different byte strings that are hashed have the
same digest. -/
theorem checkRecord_iff_proveRecord_or_collision (leaves : List Hash) {n : Nat}
    (hn : n < leaves.length) :
    ∃ ranges stored, copathRanges n leaves.length = .ok ranges ∧
      (∀ range ∈ ranges, range.start < range.stop) ∧
      (ranges.flatMap LeafRange.positions ++ [n]).Perm (List.range leaves.length) ∧
      storedHashes leaves = .ok stored ∧
      proveRecord leaves.length n (.ofStored stored) =
        .ok (ranges.map (LeafRange.rootIn leaves)) ∧
      ∀ (proof : List Hash) (leaf : Hash),
        (leaf = leaves[n] ∧ proof = ranges.map (LeafRange.rootIn leaves) →
          checkRecord proof leaves.length (root leaves) n leaf = .ok ()) ∧
        (checkRecord proof leaves.length (root leaves) n leaf = .ok () →
          (leaf = leaves[n] ∧ proof = ranges.map (LeafRange.rootIn leaves)) ∨
            Collision (recordMessages proof leaves.length n leaf ++
              (ofLeaves leaves).messages)) := by
  obtain ⟨stored, hstored, hstores⟩ := exists_stores_storedHashes leaves
  have hway := wayDown hn
  have hwhole : part leaves 0 leaves.length = leaves := by rw [part_zero, List.take_length]
  have hend : 0 + leaves.length ≤ leaves.length := by omega
  refine ⟨siblingRanges 0 leaves.length n, stored, ?_, ?_, ?_, hstored,
    hstores.proveRecord_eq_ok hn (Nat.le_refl _), ?_⟩
  · rw [copathRanges, if_neg (Nat.not_le.mpr hn)]
  · intro range hrange
    exact (hway.bounds_of_mem hrange).2.1
  · have hperm := hway.perm_positions 0
    rwa [Nat.zero_add, ← List.range_eq_range'] at hperm
  · intro proof leaf
    constructor
    · rintro ⟨rfl, rfl⟩
      have hleaf : leaves[0 + n]? = some leaves[n] := by
        rw [Nat.zero_add]
        exact List.getElem?_eq_getElem hn
      obtain ⟨tree, htree, hhash⟩ := hway.auditTree_rootIn hend hleaf
      rw [hwhole] at hhash
      exact checkRecord_eq_ok_iff.mpr ⟨hn, tree, htree, hhash⟩
    · intro h
      by_cases hsafe : Collision (recordMessages proof leaves.length n leaf ++
          (ofLeaves leaves).messages)
      · exact .inr hsafe
      · obtain ⟨-, tree, htree, hhash⟩ := checkRecord_eq_ok_iff.mp h
        rw [recordMessages, htree] at hsafe
        obtain ⟨hleaf, hpath⟩ := hway.eq_of_auditTree hsafe hend htree
          (hhash.trans (congrArg root hwhole.symm)) (List.subset_append_left _ _)
          (hwhole.symm ▸ List.subset_append_right _ _)
        rw [Nat.zero_add, List.getElem?_eq_getElem hn] at hleaf
        exact .inl ⟨(Option.some.inj hleaf).symm, List.reverse_injective hpath⟩

/-- Of five leaves, the third has one audit path that is accepted. -/
theorem checkRecord_third_of_five :
    2 < fiveLeaves.length ∧
      ∃ ranges stored, copathRanges 2 fiveLeaves.length = .ok ranges ∧
        (∀ range ∈ ranges, range.start < range.stop) ∧
        (ranges.flatMap LeafRange.positions ++ [2]).Perm (List.range fiveLeaves.length) ∧
        storedHashes fiveLeaves = .ok stored ∧
        proveRecord fiveLeaves.length 2 (.ofStored stored) =
          .ok (ranges.map (LeafRange.rootIn fiveLeaves)) ∧
        ∀ (proof : List Hash) (leaf : Hash),
          (leaf = recordHash [0x02] ∧ proof = ranges.map (LeafRange.rootIn fiveLeaves) →
            checkRecord proof fiveLeaves.length (root fiveLeaves) 2 leaf = .ok ()) ∧
          (checkRecord proof fiveLeaves.length (root fiveLeaves) 2 leaf = .ok () →
            (leaf = recordHash [0x02] ∧ proof = ranges.map (LeafRange.rootIn fiveLeaves)) ∨
              Collision (recordMessages proof fiveLeaves.length 2 leaf ++
                (ofLeaves fiveLeaves).messages)) := by
  have hn : 2 < fiveLeaves.length := by decide
  exact ⟨hn, checkRecord_iff_proveRecord_or_collision fiveLeaves hn⟩

end KeyTransparency.Tree
