import KeyTransparency.Proofs.Tree.Prefix
import KeyTransparency.Proofs.Tree.SingleLeaf

/-!
# The shape of a proof decides whether it is malformed

Between two sizes, beside a leaf and around a set of leaves there is one number of hashes that a
proof must have.  A proof with another number of hashes is malformed, and one with this number leads
to some root, which is the wanted one or not.  For a consistency proof the number is that of the
hashes that are made, for an audit path that of the ranges beside the leaf, and for a batch proof
that of the largest subtrees without any of the leaves.
-/

namespace KeyTransparency.Tree

/-- The number of hashes decides the answer of a check: the proof is malformed exactly if it does
not fit, and if it does the answer is about the root. -/
structure DecidedBy (answer : Except TreeError Unit) (fits : Prop) : Prop where
  malformed_iff : (∃ fault, answer = .error (.malformedProof fault)) ↔ ¬fits
  of_fits : fits → answer = .ok () ∨ answer = .error .rootMismatch

theorem DecidedBy.of_cases {answer : Except TreeError Unit} {fits : Prop}
    (hfits : fits → answer = .ok () ∨ answer = .error .rootMismatch)
    (hother : ¬fits → ∃ fault, answer = .error (.malformedProof fault)) :
    DecidedBy answer fits := by
  refine ⟨⟨?_, hother⟩, hfits⟩
  rintro ⟨fault, hfault⟩ h
  rcases hfits h with hok | hroot
  · cases hfault.symm.trans hok
  · cases hfault.symm.trans hroot

/-- A last test of the root succeeds or finds another root. -/
theorem require_root_cases (p : Prop) [Decidable p] :
    (if p then pure () else throw .rootMismatch : Except TreeError Unit) = .ok () ∨
      (if p then pure () else throw .rootMismatch : Except TreeError Unit) =
        .error .rootMismatch := by
  by_cases hp : p
  · exact .inl (if_pos hp)
  · exact .inr (if_neg hp)

/-! ## Consistency proofs -/

/-- A proof with as many hashes as are needed leads to some roots. -/
theorem exists_consistencyTrees (known : Hash) {proof : List Hash} {leftmost : Bool}
    {old size : Nat} (hpos : 1 ≤ old) (hle : old ≤ size)
    (hlength : proof.length = consistencyLength leftmost old size) :
    ∃ trees, consistencyTrees known proof leftmost old size = .ok trees := by
  induction proof generalizing leftmost old size with
  | nil =>
    rw [consistencyTrees]
    rcases Nat.lt_or_eq_of_le hle with hnew | rfl
    · exfalso
      by_cases hend : old ≤ leftSize size
      · rw [consistencyLength_left leftmost hpos hnew hend] at hlength
        cases hlength
      · rw [consistencyLength_right leftmost hnew (Nat.lt_of_not_le hend)] at hlength
        cases hlength
    · rw [consistencyLength_self] at hlength
      cases leftmost with
      | true =>
        rw [if_pos rfl, if_pos rfl]
        exact ⟨_, rfl⟩
      | false => cases hlength
  | cons hash proof ih =>
    rw [consistencyTrees]
    rcases Nat.lt_or_eq_of_le hle with hnew | rfl
    · rw [if_neg (Nat.ne_of_lt hnew)]
      by_cases hend : old ≤ leftSize size
      · rw [consistencyLength_left leftmost hpos hnew hend] at hlength
        obtain ⟨trees, htrees⟩ := ih hpos hend (Nat.succ.inj hlength)
        rw [if_pos hend, htrees]
        exact ⟨_, rfl⟩
      · have hright := Nat.lt_of_not_le hend
        rw [consistencyLength_right leftmost hnew hright] at hlength
        obtain ⟨trees, htrees⟩ := ih (by omega) (by omega) (Nat.succ.inj hlength)
        rw [if_neg hend, htrees]
        exact ⟨_, rfl⟩
    · rw [consistencyLength_self] at hlength
      cases leftmost with
      | true => cases hlength
      | false =>
        obtain rfl := List.eq_nil_of_length_eq_zero (Nat.succ.inj hlength)
        rw [if_pos rfl, if_neg (by simp)]
        exact ⟨_, rfl⟩

/-- As many hashes are made for a proof as it needs, whatever is read. -/
theorem length_build_consistencyPlan (leftmost : Bool) (start : Nat) {old size : Nat}
    (hpos : 1 ≤ old) (hle : old ≤ size) (hashes : List Hash) :
    ((consistencyPlan leftmost start old size).build hashes).length =
      consistencyLength leftmost old size := by
  induction size using Nat.strongRecOn generalizing leftmost start old hashes with
  | ind size ih =>
    rcases Nat.lt_or_eq_of_le hle with hnew | rfl
    · have hsmaller := leftSize_lt (show 2 ≤ size by omega)
      have hhalf := leftSize_pos size
      rw [consistencyPlan, dif_neg (by omega)]
      by_cases hend : old ≤ leftSize size
      · rw [if_pos hend, consistencyLength_left leftmost hpos hnew hend,
          ← ih _ hsmaller leftmost start hpos hend]
        exact List.length_append
      · rw [if_neg hend, consistencyLength_right leftmost hnew (by omega),
          ← ih _ (by omega) false (start + leftSize size) (by omega) (by omega)]
        exact List.length_append
    · rw [consistencyPlan, dif_pos (.inl rfl), consistencyLength_self]
      cases leftmost with
      | true => rfl
      | false => rfl

theorem length_of_proveTree {size old : Nat} {reader : HashReader} {made : List Hash}
    (h : proveTree size old reader = .ok made) :
    made.length = consistencyLength true old size := by
  obtain ⟨_, hsizes, hrun⟩ := bind_eq_ok_iff.mp h
  obtain ⟨hpos, hle⟩ := checkSizes_eq_ok_iff.mp hsizes
  obtain ⟨hashes, -, hmade⟩ := bind_eq_ok_iff.mp hrun
  cases hmade
  exact length_build_consistencyPlan true 0 hpos hle hashes

section

variable {proof : List Hash} {old size : Nat} {treeRoot oldRoot : Hash}

theorem checkTree_of_length_eq (hpos : 1 ≤ old) (hle : old ≤ size)
    (hlength : proof.length = consistencyLength true old size) :
    checkTree proof size treeRoot old oldRoot = .ok () ∨
      checkTree proof size treeRoot old oldRoot = .error .rootMismatch := by
  rw [← List.length_reverse] at hlength
  obtain ⟨trees, htrees⟩ := exists_consistencyTrees oldRoot hpos hle hlength
  rw [List.length_reverse] at hlength
  have hall := consistencyTreesOf_eq_ok_iff.mpr ⟨⟨hpos, hle⟩, hlength, htrees⟩
  rw [checkTree, hall]
  exact require_root_cases _

theorem checkTree_of_length_ne (hpos : 1 ≤ old) (hle : old ≤ size)
    (hlength : proof.length ≠ consistencyLength true old size) :
    checkTree proof size treeRoot old oldRoot =
      .error (.malformedProof
        (.consistencyLength old size (consistencyLength true old size) proof.length)) := by
  rw [checkTree, consistencyTreesOf, treeProofLength_eq_ok hpos hle]
  change (if proof.length ≠ consistencyLength true old size then _ else _ : Except _ _) >>= _ = _
  rw [if_pos hlength]
  rfl

end

/-! ## Audit paths -/

theorem checkRecord_decidedBy {size n : Nat} (hn : n < size) (proof : List Hash)
    (treeRoot leaf : Hash) :
    DecidedBy (checkRecord proof size treeRoot n leaf)
      (proof.length = (siblingRanges 0 size n).length) := by
  have hway := wayDown hn
  rw [← List.length_reverse]
  apply DecidedBy.of_cases
  · intro hlength
    obtain ⟨tree, htree⟩ := hway.exists_auditTree hlength
    rw [checkRecord_of_auditTree hn htree]
    exact require_root_cases _
  · intro hlength
    obtain ⟨fault, hfault⟩ := hway.auditTree_eq_error hlength
    exact ⟨fault, checkRecord_of_auditTree_error hn hfault treeRoot⟩

/-! ## Subtrees without any of the positions -/

/-- The range of a subtree of the tree of `size` leaves from `start` on. -/
inductive IsSubtree : (start size : Nat) → LeafRange → Prop where
  | whole (start size : Nat) : IsSubtree start size ⟨start, start + size⟩
  | left {start size : Nat} {range : LeafRange} (htwo : 2 ≤ size)
      (hleft : IsSubtree start (leftSize size) range) : IsSubtree start size range
  | right {start size : Nat} {range : LeafRange} (htwo : 2 ≤ size)
      (hright : IsSubtree (start + leftSize size) (size - leftSize size) range) :
      IsSubtree start size range

theorem IsSubtree.bounds {start size : Nat} {range : LeafRange} (h : IsSubtree start size range)
    (hpos : 1 ≤ size) :
    start ≤ range.start ∧ range.start < range.stop ∧ range.stop ≤ start + size := by
  induction h with
  | whole start size => exact ⟨Nat.le_refl _, Nat.lt_add_of_pos_right hpos, Nat.le_refl _⟩
  | @left start size range htwo _ ih =>
    have hsmaller := leftSize_lt htwo
    have hbounds := ih (leftSize_pos size)
    omega
  | @right start size range htwo _ ih =>
    have hsmaller := leftSize_lt htwo
    have hbounds := ih (by omega)
    omega

/-- A range without any of the positions, which are counted from `start`. -/
def LeafRange.Avoids (range : LeafRange) (start : Nat) (positions : List Nat) : Prop :=
  ∀ position ∈ positions, ¬(range.start ≤ start + position ∧ start + position < range.stop)

namespace LeafRange.Avoids

variable {range : LeafRange} {start division : Nat} {positions : List Nat}

theorem left_iff (hinside : range.stop ≤ start + division) :
    range.Avoids start (leftPositions division positions) ↔ range.Avoids start positions := by
  constructor
  · intro h position hposition hthere
    have hleft : position < division := by omega
    exact h position (List.mem_filter.mpr ⟨hposition, decide_eq_true hleft⟩) hthere
  · intro h position hposition
    exact h position (List.mem_filter.mp hposition).1

theorem right_iff (hinside : start + division ≤ range.start) :
    range.Avoids (start + division) (rightPositions division positions) ↔
      range.Avoids start positions := by
  constructor
  · intro h position hposition hthere
    have hright : division ≤ position := by omega
    refine h (position - division) (List.mem_map.mpr ⟨position, ?_, rfl⟩) (by omega)
    exact List.mem_filter.mpr ⟨hposition, decide_eq_true hright⟩
  · intro h later hlater
    obtain ⟨position, hposition, rfl⟩ := List.mem_map.mp hlater
    obtain ⟨hmem, hright⟩ := List.mem_filter.mp hposition
    have havoids := h position hmem
    rw [Nat.add_assoc, Nat.add_sub_cancel' (of_decide_eq_true hright)]
    exact havoids

end LeafRange.Avoids

theorem not_avoids_whole {start size : Nat} {positions : List Nat} (hsome : positions ≠ [])
    (hbelow : ∀ position ∈ positions, position < size) :
    ¬LeafRange.Avoids ⟨start, start + size⟩ start positions := by
  intro h
  obtain ⟨position, hposition⟩ := List.exists_mem_of_ne_nil positions hsome
  have hinside := hbelow position hposition
  exact h position hposition ⟨Nat.le_add_right _ _, Nat.add_lt_add_left hinside start⟩

/-- A subtree of the tree of `size` leaves from `start` on that has none of the positions, which are
counted from there, and is not part of a larger one. -/
structure IsLargestFree (start size : Nat) (positions : List Nat) (range : LeafRange) : Prop where
  subtree : IsSubtree start size range
  avoids : range.Avoids start positions
  largest : ∀ other, IsSubtree start size other → other.Avoids start positions →
    other.start ≤ range.start → range.stop ≤ other.stop → other = range

/-- The largest subtrees without any of the positions, from left to right. -/
def freeRanges (start size : Nat) (positions : List Nat) : List LeafRange :=
  if positions = [] then [⟨start, start + size⟩]
  else if _h : size ≤ 1 then []
  else
    freeRanges start (leftSize size) (leftPositions (leftSize size) positions) ++
      freeRanges (start + leftSize size) (size - leftSize size)
        (rightPositions (leftSize size) positions)
termination_by size
decreasing_by
  all_goals
    have := leftSize_pos size
    have := leftSize_lt (show 1 < size by omega)
    omega

theorem length_freeRanges (start size : Nat) (positions : List Nat) :
    (freeRanges start size positions).length = batchLength size positions := by
  fun_induction freeRanges start size positions with
  | case1 start size =>
    rw [batchLength_nil]
    rfl
  | case2 start size positions hsome hone =>
    rw [batchLength_of_le_one hone hsome]
    rfl
  | case3 start size positions hsome hone ihLeft ihRight =>
    rw [batchLength_of_two_le (by omega) hsome, List.length_append, ihLeft, ihRight]

namespace IsLargestFree

variable {start size : Nat} {positions : List Nat} {range : LeafRange}

/-- Without positions, the whole tree is the largest subtree. -/
theorem nil_iff (hpos : 1 ≤ size) :
    IsLargestFree start size [] range ↔ range = ⟨start, start + size⟩ := by
  have hwhole := IsSubtree.whole start size
  constructor
  · intro h
    obtain ⟨hstart, -, hstop⟩ := h.subtree.bounds hpos
    exact (h.largest _ hwhole (List.forall_mem_nil _) hstart hstop).symm
  · rintro rfl
    refine ⟨hwhole, List.forall_mem_nil _, ?_⟩
    rintro ⟨otherStart, otherStop⟩ hother - hstart hstop
    obtain ⟨hlow, -, hhigh⟩ := hother.bounds hpos
    simp only [LeafRange.mk.injEq] at *
    omega

/-- A single leaf at a position has no subtree without it. -/
theorem not_of_le_one (hone : size ≤ 1) (hsome : positions ≠ [])
    (hbelow : ∀ position ∈ positions, position < size) :
    ¬IsLargestFree start size positions range := by
  intro h
  cases h.subtree with
  | whole => exact not_avoids_whole hsome hbelow h.avoids
  | left htwo _ => omega
  | right htwo _ => omega

/-- With positions, the largest subtrees are those of the two halves. -/
theorem halves_iff (htwo : 2 ≤ size) (hsome : positions ≠ [])
    (hbelow : ∀ position ∈ positions, position < size) :
    IsLargestFree start size positions range ↔
      IsLargestFree start (leftSize size) (leftPositions (leftSize size) positions) range ∨
        IsLargestFree (start + leftSize size) (size - leftSize size)
          (rightPositions (leftSize size) positions) range := by
  have hsmaller := leftSize_lt htwo
  have hpos := leftSize_pos size
  constructor
  · rintro ⟨hsubtree, havoids, hlargest⟩
    cases hsubtree with
    | whole => exact absurd havoids (not_avoids_whole hsome hbelow)
    | left _ hleft =>
      refine .inl ⟨hleft, (LeafRange.Avoids.left_iff (hleft.bounds hpos).2.2).mpr havoids, ?_⟩
      intro other hother hfree
      refine hlargest other (.left htwo hother) ?_
      exact (LeafRange.Avoids.left_iff (hother.bounds hpos).2.2).mp hfree
    | right _ hright =>
      have hbounds := hright.bounds (by omega)
      refine .inr ⟨hright, (LeafRange.Avoids.right_iff hbounds.1).mpr havoids, ?_⟩
      intro other hother hfree
      refine hlargest other (.right htwo hother) ?_
      exact (LeafRange.Avoids.right_iff (hother.bounds (by omega)).1).mp hfree
  · rintro (⟨hleft, havoids, hlargest⟩ | ⟨hright, havoids, hlargest⟩)
    · have hbounds := hleft.bounds hpos
      refine ⟨.left htwo hleft, (LeafRange.Avoids.left_iff hbounds.2.2).mp havoids, ?_⟩
      intro other hother hfree hstart hstop
      cases hother with
      | whole => exact absurd hfree (not_avoids_whole hsome hbelow)
      | left _ hother =>
        have hinside := (hother.bounds hpos).2.2
        exact hlargest other hother ((LeafRange.Avoids.left_iff hinside).mpr hfree) hstart hstop
      | right _ hother =>
        have hinside := hother.bounds (by omega)
        omega
    · have hbounds := hright.bounds (by omega)
      refine ⟨.right htwo hright, (LeafRange.Avoids.right_iff hbounds.1).mp havoids, ?_⟩
      intro other hother hfree hstart hstop
      cases hother with
      | whole => exact absurd hfree (not_avoids_whole hsome hbelow)
      | left _ hother =>
        have hinside := hother.bounds hpos
        omega
      | right _ hother =>
        have hinside := (hother.bounds (by omega)).1
        exact hlargest other hother ((LeafRange.Avoids.right_iff hinside).mpr hfree) hstart hstop

end IsLargestFree

theorem lt_of_mem_leftPositions {division position : Nat} {positions : List Nat}
    (h : position ∈ leftPositions division positions) : position < division :=
  of_decide_eq_true (List.mem_filter.mp h).2

theorem lt_of_mem_rightPositions {division size position : Nat} {positions : List Nat}
    (hbelow : ∀ position ∈ positions, position < size)
    (h : position ∈ rightPositions division positions) : position < size - division := by
  obtain ⟨whole, hwhole, rfl⟩ := List.mem_map.mp h
  obtain ⟨hmem, hright⟩ := List.mem_filter.mp hwhole
  exact Nat.sub_lt_sub_right (of_decide_eq_true hright) (hbelow whole hmem)

/-- The list of the largest subtrees without positions has all of them. -/
theorem mem_freeRanges_iff {start size : Nat} {positions : List Nat} {range : LeafRange}
    (hpos : 1 ≤ size) (hbelow : ∀ position ∈ positions, position < size) :
    range ∈ freeRanges start size positions ↔ IsLargestFree start size positions range := by
  fun_induction freeRanges start size positions with
  | case1 start size => rw [List.mem_singleton, IsLargestFree.nil_iff hpos]
  | case2 start size positions hsome hone =>
    exact iff_of_false List.not_mem_nil (IsLargestFree.not_of_le_one hone hsome hbelow)
  | case3 start size positions hsome hone ihLeft ihRight =>
    have htwo : 2 ≤ size := by omega
    have hsmaller := leftSize_lt htwo
    rw [List.mem_append, IsLargestFree.halves_iff htwo hsome hbelow]
    exact or_congr (ihLeft (leftSize_pos size) fun _ => lt_of_mem_leftPositions)
      (ihRight (by omega) fun _ => lt_of_mem_rightPositions hbelow)

theorem pairwise_freeRanges {start size : Nat} {positions : List Nat} (hpos : 1 ≤ size)
    (hbelow : ∀ position ∈ positions, position < size) :
    (freeRanges start size positions).Pairwise (·.start < ·.start) := by
  fun_induction freeRanges start size positions with
  | case1 start size => exact List.pairwise_singleton _ _
  | case2 start size positions hsome hone => exact .nil
  | case3 start size positions hsome hone ihLeft ihRight =>
    have hsmaller := leftSize_lt (show 2 ≤ size by omega)
    have hhalf := leftSize_pos size
    refine List.pairwise_append.mpr ⟨ihLeft hhalf fun _ => lt_of_mem_leftPositions,
      ihRight (by omega) fun _ => lt_of_mem_rightPositions hbelow, ?_⟩
    intro before hbefore after hafter
    rw [mem_freeRanges_iff hhalf fun _ => lt_of_mem_leftPositions] at hbefore
    rw [mem_freeRanges_iff (by omega) fun _ => lt_of_mem_rightPositions hbelow] at hafter
    have hleft := hbefore.subtree.bounds hhalf
    have hright := hafter.subtree.bounds (by omega)
    omega

/-! ## Batch proofs -/

theorem checkBatch_decidedBy {size : Nat} {positions : List Nat} (hpos : 1 ≤ size)
    (hincreasing : positions.Pairwise (· < ·)) (hbelow : ∀ position ∈ positions, position < size)
    {leaves : List Hash} (hleaves : positions.length = leaves.length) (proof : List Hash)
    (treeRoot : Hash) :
    DecidedBy (checkBatch proof size treeRoot positions leaves)
      (proof.length = (freeRanges 0 size positions).length) := by
  have hchecked := checkPositions_eq_ok_iff.mpr ⟨hpos, hincreasing, hbelow⟩
  rw [length_freeRanges]
  apply DecidedBy.of_cases
  · intro hlength
    obtain ⟨tree, htree⟩ := exists_batchTreeOf hchecked hleaves hlength
    rw [checkBatch_of_batchTreeOf htree]
    exact require_root_cases _
  · intro hlength
    rcases Nat.lt_or_gt_of_ne hlength with hshort | hlong
    · exact ⟨_, checkBatch_of_batchTreeOf_error
        (batchTreeOf_tooShort hchecked hleaves hshort) treeRoot⟩
    · exact ⟨_, checkBatch_of_batchTreeOf_error
        (batchTreeOf_unused hchecked hleaves hlong) treeRoot⟩

/-! ## All three checks -/

/-- The number of hashes in a proof decides whether it is malformed.

* Between two sizes it is the computed length, which every proof that is made has.  A wrong length
  is found before the proof is run, and no other fault is ever reported.
* Beside a leaf it is the number of ranges beside the way to it.
* Around some leaves it is the number of the largest subtrees that have none of them. -/
theorem proofs_decided_by_length :
    (∀ {old size : Nat}, 1 ≤ old → old ≤ size →
      ∃ needed, treeProofLength old size = .ok needed ∧
        (∀ reader made, proveTree size old reader = .ok made → made.length = needed) ∧
        (∀ leaves : List Hash, size ≤ leaves.length → ∃ stored made,
          storedHashes leaves = .ok stored ∧ proveTree size old (.ofStored stored) = .ok made) ∧
        ∀ (proof : List Hash) (treeRoot oldRoot : Hash),
          DecidedBy (checkTree proof size treeRoot old oldRoot) (proof.length = needed) ∧
            ∀ fault, checkTree proof size treeRoot old oldRoot = .error (.malformedProof fault) →
              fault = .consistencyLength old size needed proof.length) ∧
    (∀ {n size : Nat}, n < size →
      ∃ ranges, copathRanges n size = .ok ranges ∧
        ∀ (proof : List Hash) (treeRoot leaf : Hash),
          DecidedBy (checkRecord proof size treeRoot n leaf) (proof.length = ranges.length)) ∧
    ∀ {size : Nat} {positions : List Nat}, 1 ≤ size → positions.Pairwise (· < ·) →
      (∀ position ∈ positions, position < size) →
      ∃ ranges : List LeafRange, ranges.Pairwise (·.start < ·.start) ∧
        (∀ range, range ∈ ranges ↔ IsLargestFree 0 size positions range) ∧
        ∀ (proof : List Hash) (treeRoot : Hash) (leaves : List Hash),
          positions.length = leaves.length →
          DecidedBy (checkBatch proof size treeRoot positions leaves)
            (proof.length = ranges.length) := by
  refine ⟨?_, ?_, ?_⟩
  · intro old size hpos hle
    refine ⟨_, treeProofLength_eq_ok hpos hle, fun _ _ => length_of_proveTree, ?_, ?_⟩
    · intro leaves hsize
      obtain ⟨stored, hstored, hstores⟩ := exists_stores_storedHashes leaves
      exact ⟨stored, _, hstored, hstores.proveTree_eq_ok hpos hle hsize⟩
    · intro proof treeRoot oldRoot
      have hdecided : DecidedBy (checkTree proof size treeRoot old oldRoot)
          (proof.length = consistencyLength true old size) :=
        .of_cases (checkTree_of_length_eq hpos hle) fun hlength =>
          ⟨_, checkTree_of_length_ne hpos hle hlength⟩
      refine ⟨hdecided, ?_⟩
      intro fault hfault
      have hlength := hdecided.malformed_iff.mp ⟨fault, hfault⟩
      rw [checkTree_of_length_ne hpos hle hlength] at hfault
      cases hfault
      rfl
  · intro n size hn
    refine ⟨siblingRanges 0 size n, ?_, checkRecord_decidedBy hn⟩
    rw [copathRanges, if_neg (Nat.not_le.mpr hn)]
  · intro size positions hpos hincreasing hbelow
    refine ⟨freeRanges 0 size positions, pairwise_freeRanges hpos hbelow,
      fun range => mem_freeRanges_iff hpos hbelow, ?_⟩
    intro proof treeRoot leaves hleaves
    exact checkBatch_decidedBy hpos hincreasing hbelow hleaves proof treeRoot

/-- From two leaves to three, for the third of five leaves, and for the second and third of four. -/
theorem decided_by_length_small :
    (∃ needed, treeProofLength 2 3 = .ok needed ∧
      ∀ (proof : List Hash) (treeRoot oldRoot : Hash),
        DecidedBy (checkTree proof 3 treeRoot 2 oldRoot) (proof.length = needed)) ∧
    (∃ ranges, copathRanges 2 5 = .ok ranges ∧
      ∀ (proof : List Hash) (treeRoot leaf : Hash),
        DecidedBy (checkRecord proof 5 treeRoot 2 leaf) (proof.length = ranges.length)) ∧
    ∃ ranges : List LeafRange,
      (∀ range, range ∈ ranges ↔ IsLargestFree 0 4 [1, 2] range) ∧
      ∀ (proof : List Hash) (treeRoot first second : Hash),
        DecidedBy (checkBatch proof 4 treeRoot [1, 2] [first, second])
          (proof.length = ranges.length) := by
  obtain ⟨htree, hrecord, hbatch⟩ := proofs_decided_by_length
  obtain ⟨needed, hneeded, -, -, hchecks⟩ := @htree 2 3 (by decide) (by decide)
  obtain ⟨ranges, -, hranges, hbatchChecks⟩ :=
    @hbatch 4 [1, 2] (by decide) (by decide) (by decide)
  exact ⟨⟨needed, hneeded, fun proof treeRoot oldRoot => (hchecks proof treeRoot oldRoot).1⟩,
    hrecord (by decide), ranges, hranges,
    fun proof treeRoot first second => hbatchChecks proof treeRoot [first, second] rfl⟩

-- Around the second and the third of four leaves, the first and the last are to be given.
example : freeRanges 0 4 [1, 2] = [⟨0, 1⟩, ⟨3, 4⟩] := by decide +kernel

end KeyTransparency.Tree
