import KeyTransparency.Proofs.Tree.Record
import KeyTransparency.Proofs.Tree.Shape
import Mathlib.Data.List.Sort

/-!
# A batch of one leaf is an audit path

An audit path lists its hashes from the leaf upwards and is used up from the root down; a batch
proof lists them from left to right and is used up in this order.  For one leaf both have the same
hashes, and `leftToRight` says how one list is made from the other.  The two computations are then
the same, whatever the hashes are, and so are the answers of the two checks.
-/

namespace KeyTransparency.Tree

/-! ## From left to right -/

/-- Whether the range of a hash starts no later than that of another. -/
def StartsFirst (first second : LeafRange × Hash) : Prop := first.1.start ≤ second.1.start

instance : DecidableRel StartsFirst := fun first second =>
  inferInstanceAs (Decidable (first.1.start ≤ second.1.start))

/-- The hashes of an audit path in the order of the ranges that they are the roots of. -/
def leftToRight (ranges : List LeafRange) (proof : List Hash) : List Hash :=
  ((ranges.zip proof).insertionSort StartsFirst).map (·.2)

section Sorting

variable {α : Type} {r : α → α → Prop} [DecidableRel r]

theorem orderedInsert_concat {item last : α} (h : r item last) (items : List α) :
    (items ++ [last]).orderedInsert r item = items.orderedInsert r item ++ [last] := by
  induction items with
  | nil => exact if_pos h
  | cons first items ih =>
    rw [List.cons_append, List.orderedInsert_cons, List.orderedInsert_cons, ih]
    split
    · rfl
    · rfl

/-- An item that is not below any other is sorted to the end. -/
theorem insertionSort_concat {last : α} {items : List α} (h : ∀ item ∈ items, r item last) :
    (items ++ [last]).insertionSort r = items.insertionSort r ++ [last] := by
  induction items with
  | nil => rfl
  | cons item items ih =>
    obtain ⟨hitem, hitems⟩ := List.forall_mem_cons.mp h
    rw [List.cons_append, List.insertionSort_cons, ih hitems, orderedInsert_concat hitem,
      List.insertionSort_cons]

/-- An item that is below all others is sorted to the front. -/
theorem insertionSort_concat_of_not {last : α} {items : List α}
    (h : ∀ item ∈ items, ¬r item last) :
    (items ++ [last]).insertionSort r = last :: items.insertionSort r := by
  induction items with
  | nil => rfl
  | cons item items ih =>
    obtain ⟨hitem, hitems⟩ := List.forall_mem_cons.mp h
    rw [List.cons_append, List.insertionSort_cons, ih hitems, List.orderedInsert_cons,
      if_neg hitem, List.insertionSort_cons]

end Sorting

theorem leftToRight_concat {ranges : List LeafRange} {proof : List Hash} {range : LeafRange}
    (hlength : ranges.length = proof.length)
    (hstart : ∀ other ∈ ranges, other.start ≤ range.start) (hash : Hash) :
    leftToRight (ranges ++ [range]) (proof ++ [hash]) = leftToRight ranges proof ++ [hash] := by
  have hlast : ∀ item ∈ ranges.zip proof, StartsFirst item (range, hash) :=
    fun item hitem => hstart item.1 (List.of_mem_zip hitem).1
  rw [leftToRight, List.zip_append hlength, List.zip_cons_cons, List.zip_nil_left,
    insertionSort_concat hlast, List.map_append]
  rfl

theorem leftToRight_concat_of_lt {ranges : List LeafRange} {proof : List Hash} {range : LeafRange}
    (hlength : ranges.length = proof.length)
    (hstart : ∀ other ∈ ranges, range.start < other.start) (hash : Hash) :
    leftToRight (ranges ++ [range]) (proof ++ [hash]) = hash :: leftToRight ranges proof := by
  have hfirst : ∀ item ∈ ranges.zip proof, ¬StartsFirst item (range, hash) :=
    fun item hitem => Nat.not_le.mpr (hstart item.1 (List.of_mem_zip hitem).1)
  rw [leftToRight, List.zip_append hlength, List.zip_cons_cons, List.zip_nil_left,
    insertionSort_concat_of_not hfirst, List.map_cons]
  rfl

-- The ranges beside the third of five leaves.
example (a b c : Hash) : leftToRight [⟨3, 4⟩, ⟨0, 2⟩, ⟨4, 5⟩] [a, b, c] = [b, a, c] := rfl

/-! ## One leaf at a division -/

variable {division position : Nat}

theorem leftPositions_single (h : position < division) :
    leftPositions division [position] = [position] := by
  simp [leftPositions, h]

theorem leftPositions_single_of_le (h : division ≤ position) :
    leftPositions division [position] = [] := by
  simp [leftPositions, h]

theorem rightPositions_single (h : division ≤ position) :
    rightPositions division [position] = [position - division] := by
  simp [rightPositions, h]

theorem rightPositions_single_of_lt (h : position < division) :
    rightPositions division [position] = [] := by
  simp [rightPositions, h]

theorem leftLeaves_single (h : position < division) (leaf : Hash) :
    leftLeaves division [⟨position, leaf⟩] = [⟨position, leaf⟩] := by
  simp [leftLeaves, h]

theorem leftLeaves_single_of_le (h : division ≤ position) (leaf : Hash) :
    leftLeaves division [⟨position, leaf⟩] = [] := by
  simp [leftLeaves, h]

theorem rightLeaves_single (h : division ≤ position) (leaf : Hash) :
    rightLeaves division [⟨position, leaf⟩] = [⟨position - division, leaf⟩] := by
  simp [rightLeaves, h]

theorem rightLeaves_single_of_lt (h : position < division) (leaf : Hash) :
    rightLeaves division [⟨position, leaf⟩] = [] := by
  simp [rightLeaves, h]

/-! ## Lengths -/

namespace WayDown

variable {size n start : Nat} {leaf : Hash} {path : List Hash}

/-- A path with a hash for every range leads to some root. -/
theorem exists_auditTree (h : WayDown size n)
    (hlength : path.length = (siblingRanges start size n).length) :
    ∃ tree, auditTree leaf path size n = .ok tree := by
  induction h generalizing start path with
  | leaf =>
    rw [siblingRanges_leaf] at hlength
    obtain rfl := List.eq_nil_of_length_eq_zero hlength
    exact ⟨_, auditTree_nil leaf⟩
  | @left size n htwo hside _ ih =>
    rw [siblingRanges_left start htwo hside, List.length_append, List.length_singleton] at hlength
    obtain ⟨sibling, path, rfl⟩ := List.exists_cons_of_length_eq_add_one hlength
    obtain ⟨tree, htree⟩ := ih (Nat.succ.inj hlength)
    exact ⟨.node tree (.given sibling), by rw [auditTree_left leaf _ _ htwo hside, htree]; rfl⟩
  | @right size n htwo hside _ ih =>
    rw [siblingRanges_right start htwo hside, List.length_append, List.length_singleton] at hlength
    obtain ⟨sibling, path, rfl⟩ := List.exists_cons_of_length_eq_add_one hlength
    obtain ⟨tree, htree⟩ := ih (Nat.succ.inj hlength)
    exact ⟨.node (.given sibling) tree, by rw [auditTree_right leaf _ _ htwo hside, htree]; rfl⟩

/-- A path with more or fewer hashes than there are ranges is malformed. -/
theorem auditTree_eq_error (h : WayDown size n)
    (hlength : path.length ≠ (siblingRanges start size n).length) :
    ∃ fault, auditTree leaf path size n = .error (.malformedProof fault) := by
  induction h generalizing start path with
  | leaf =>
    rw [siblingRanges_leaf] at hlength
    cases path with
    | nil => exact absurd rfl hlength
    | cons sibling path => exact ⟨.auditPathTooLong, by rw [auditTree, if_pos (Nat.le_refl 1)]⟩
  | @left size n htwo hside _ ih =>
    cases path with
    | nil => exact ⟨.auditPathTooShort, by rw [auditTree, if_neg (by omega)]⟩
    | cons sibling path =>
      rw [siblingRanges_left start htwo hside, List.length_append, List.length_singleton,
        List.length_cons] at hlength
      obtain ⟨fault, hfault⟩ := ih fun hsame => hlength (congrArg Nat.succ hsame)
      exact ⟨fault, by rw [auditTree_left leaf _ _ htwo hside, hfault]; rfl⟩
  | @right size n htwo hside _ ih =>
    cases path with
    | nil => exact ⟨.auditPathTooShort, by rw [auditTree, if_neg (by omega)]⟩
    | cons sibling path =>
      rw [siblingRanges_right start htwo hside, List.length_append, List.length_singleton,
        List.length_cons] at hlength
      obtain ⟨fault, hfault⟩ := ih fun hsame => hlength (congrArg Nat.succ hsame)
      exact ⟨fault, by rw [auditTree_right leaf _ _ htwo hside, hfault]; rfl⟩

/-- The computation of a path and that of its hashes from left to right are the same. -/
theorem batchTree_leftToRight (h : WayDown size n)
    (hlength : path.length = (siblingRanges start size n).length) {tree : HashTree}
    (htree : auditTree leaf path size n = .ok tree) (rest : List Hash) :
    batchTree size [⟨n, leaf⟩]
      (leftToRight (siblingRanges start size n) path.reverse ++ rest) = .ok (tree, rest) := by
  induction h generalizing start path tree rest with
  | leaf =>
    rw [siblingRanges_leaf] at hlength ⊢
    obtain rfl := List.eq_nil_of_length_eq_zero hlength
    cases (auditTree_nil leaf).symm.trans htree
    exact batchTree_of_le_one (Nat.le_refl 1) _ _ _
  | @left size n htwo hside hway ih =>
    rw [siblingRanges_left start htwo hside] at hlength ⊢
    rw [List.length_append, List.length_singleton] at hlength
    obtain ⟨sibling, path, rfl⟩ := List.exists_cons_of_length_eq_add_one hlength
    rw [auditTree_left leaf _ _ htwo hside] at htree
    obtain ⟨below, hbelow, htree⟩ := bind_eq_ok_iff.mp htree
    cases htree
    have hpath := Nat.succ.inj hlength
    have hstart : ∀ other ∈ siblingRanges start (leftSize size) n,
        other.start ≤ start + leftSize size := by
      intro other hother
      have := hway.bounds_of_mem hother
      omega
    rw [List.reverse_cons,
      leftToRight_concat (by rw [List.length_reverse, hpath]) hstart sibling, List.append_assoc]
    have hleft := ih hpath hbelow ([sibling] ++ rest)
    have hright := batchTree_nil (size - leftSize size) sibling rest
    rw [← leftLeaves_single hside leaf] at hleft
    rw [← rightLeaves_single_of_lt hside leaf] at hright
    exact batchTree_of_halves htwo hleft hright
  | @right size n htwo hside hway ih =>
    rw [siblingRanges_right start htwo hside] at hlength ⊢
    rw [List.length_append, List.length_singleton] at hlength
    obtain ⟨sibling, path, rfl⟩ := List.exists_cons_of_length_eq_add_one hlength
    rw [auditTree_right leaf _ _ htwo hside] at htree
    obtain ⟨below, hbelow, htree⟩ := bind_eq_ok_iff.mp htree
    cases htree
    have hpath := Nat.succ.inj hlength
    have hpos := leftSize_pos size
    have hstart : ∀ other ∈ siblingRanges (start + leftSize size) (size - leftSize size)
        (n - leftSize size), start < other.start := by
      intro other hother
      have := hway.bounds_of_mem hother
      omega
    rw [List.reverse_cons,
      leftToRight_concat_of_lt (by rw [List.length_reverse, hpath]) hstart sibling,
      List.cons_append]
    have hright := ih hpath hbelow rest
    have hleft := batchTree_nil (leftSize size) sibling
      (leftToRight (siblingRanges (start + leftSize size) (size - leftSize size)
        (n - leftSize size)) path.reverse ++ rest)
    rw [← leftLeaves_single_of_le hside leaf] at hleft
    rw [← rightLeaves_single hside leaf] at hright
    exact batchTree_of_halves htwo hleft hright

/-- A batch proof for one leaf has a hash for every range. -/
theorem batchLength_single (h : WayDown size n) (start : Nat) :
    batchLength size [n] = (siblingRanges start size n).length := by
  induction h generalizing start with
  | leaf =>
    rw [siblingRanges_leaf, batchLength_of_le_one (Nat.le_refl 1) (List.cons_ne_nil _ _)]
    rfl
  | @left size n htwo hside _ ih =>
    rw [batchLength_of_two_le htwo (List.cons_ne_nil _ _), leftPositions_single hside,
      rightPositions_single_of_lt hside, batchLength_nil, ih start,
      siblingRanges_left start htwo hside, List.length_append, List.length_singleton]
  | @right size n htwo hside _ ih =>
    rw [batchLength_of_two_le htwo (List.cons_ne_nil _ _), leftPositions_single_of_le hside,
      rightPositions_single hside, batchLength_nil, ih (start + leftSize size),
      siblingRanges_right start htwo hside, List.length_append, List.length_singleton,
      Nat.add_comm]

end WayDown

/-! ## The two checks -/

variable {proof : List Hash} {size n : Nat} {leaf : Hash} {tree : HashTree}

theorem checkRecord_of_auditTree (hn : n < size)
    (htree : auditTree leaf proof.reverse size n = .ok tree) (treeRoot : Hash) :
    checkRecord proof size treeRoot n leaf =
      if tree.hash = treeRoot then pure () else throw .rootMismatch := by
  rw [checkRecord, if_neg (Nat.not_le.mpr hn), htree]
  rfl

theorem checkRecord_of_auditTree_error (hn : n < size) {error : TreeError}
    (htree : auditTree leaf proof.reverse size n = .error error) (treeRoot : Hash) :
    checkRecord proof size treeRoot n leaf = .error error := by
  rw [checkRecord, if_neg (Nat.not_le.mpr hn), htree]
  rfl

theorem checkBatch_of_batchTreeOf {positions : List Nat} {leaves : List Hash}
    (htree : batchTreeOf size positions leaves proof = .ok tree) (treeRoot : Hash) :
    checkBatch proof size treeRoot positions leaves =
      if tree.hash = treeRoot then pure () else throw .rootMismatch := by
  rw [checkBatch, evaluateBatch, htree]
  rfl

theorem checkBatch_of_batchTreeOf_error {positions : List Nat} {leaves : List Hash}
    {error : TreeError} (htree : batchTreeOf size positions leaves proof = .error error)
    (treeRoot : Hash) : checkBatch proof size treeRoot positions leaves = .error error := by
  rw [checkBatch, evaluateBatch, htree]
  rfl

theorem checkPositions_single (hn : n < size) : checkPositions size [n] = .ok () :=
  checkPositions_eq_ok_iff.mpr
    ⟨by omega, List.pairwise_singleton _ _, fun _ hposition => List.mem_singleton.mp hposition ▸ hn⟩

theorem checkBatch_eq_error_of_length_ne (hn : n < size)
    (hlength : proof.length ≠ batchLength size [n]) (treeRoot leaf : Hash) :
    ∃ fault, checkBatch proof size treeRoot [n] [leaf] = .error (.malformedProof fault) := by
  have hchecked := checkPositions_single hn
  rcases Nat.lt_or_gt_of_ne hlength with hshort | hlong
  · exact ⟨_, checkBatch_of_batchTreeOf_error (batchTreeOf_tooShort hchecked rfl hshort) treeRoot⟩
  · exact ⟨_, checkBatch_of_batchTreeOf_error (batchTreeOf_unused hchecked rfl hlong) treeRoot⟩

/-- An audit path with a hash for every range beside a leaf, and a batch proof for this leaf with
the same hashes from left to right, get the same answer, whatever the hashes are.  Any other number
of hashes is refused as malformed by both checks. -/
theorem checkRecord_eq_checkBatch_leftToRight (hn : n < size) :
    ∃ ranges, copathRanges n size = .ok ranges ∧ ∀ (treeRoot leaf : Hash) (proof : List Hash),
      (proof.length = ranges.length →
        checkRecord proof size treeRoot n leaf =
          checkBatch (leftToRight ranges proof) size treeRoot [n] [leaf]) ∧
      (proof.length ≠ ranges.length →
        (∃ fault, checkRecord proof size treeRoot n leaf = .error (.malformedProof fault)) ∧
          ∃ fault, checkBatch proof size treeRoot [n] [leaf] =
            .error (.malformedProof fault)) := by
  have hway := wayDown hn
  refine ⟨siblingRanges 0 size n, by rw [copathRanges, if_neg (Nat.not_le.mpr hn)], ?_⟩
  intro treeRoot leaf proof
  constructor
  · intro hlength
    rw [← List.length_reverse] at hlength
    obtain ⟨tree, htree⟩ := hway.exists_auditTree hlength
    have hbatch := hway.batchTree_leftToRight hlength htree []
    rw [List.reverse_reverse, List.append_nil] at hbatch
    have htreeOf : batchTreeOf size [n] [leaf] (leftToRight (siblingRanges 0 size n) proof) =
        .ok tree := by
      rw [batchTreeOf_eq (checkPositions_single hn) rfl]
      exact bind_eq_ok_iff.mpr ⟨_, hbatch, if_pos rfl⟩
    rw [checkRecord_of_auditTree hn htree, checkBatch_of_batchTreeOf htreeOf]
  · intro hlength
    constructor
    · rw [← List.length_reverse] at hlength
      obtain ⟨fault, hfault⟩ := hway.auditTree_eq_error hlength
      exact ⟨fault, checkRecord_of_auditTree_error hn hfault treeRoot⟩
    · rw [← hway.batchLength_single 0] at hlength
      exact checkBatch_eq_error_of_length_ne hn hlength treeRoot leaf

/-- For the third of five leaves the two checks agree. -/
theorem checkRecord_eq_checkBatch_third_of_five :
    2 < 5 ∧ ∃ ranges, copathRanges 2 5 = .ok ranges ∧
      ∀ (treeRoot leaf : Hash) (proof : List Hash),
        (proof.length = ranges.length →
          checkRecord proof 5 treeRoot 2 leaf =
            checkBatch (leftToRight ranges proof) 5 treeRoot [2] [leaf]) ∧
        (proof.length ≠ ranges.length →
          (∃ fault, checkRecord proof 5 treeRoot 2 leaf = .error (.malformedProof fault)) ∧
            ∃ fault, checkBatch proof 5 treeRoot [2] [leaf] =
              .error (.malformedProof fault)) := by
  have hn : 2 < 5 := by decide
  exact ⟨hn, checkRecord_eq_checkBatch_leftToRight hn⟩

end KeyTransparency.Tree
