import KeyTransparency.Proofs.Tree.Consistency
import KeyTransparency.Proofs.Tree.Shape
import KeyTransparency.Proofs.Words.Run
import KeyTransparency.Words.Tree

/-!
# Checking trees in words never halts

A subtree of a tree whose size is a word has bounds that are words, and a subtree of at most
`2 ^ (d + 1)` leaves has halves of at most `2 ^ d` leaves, so that `d + 1` divisions reach its
leaves.  The checks of consistency proofs, audit paths and batch proofs in words therefore come to
the results that the checks of numbers have.
-/

namespace KeyTransparency

namespace Tree

theorem leftSize_le_two_pow {size depth : Nat} (htwo : 2 ≤ size) (h : size ≤ 2 ^ (depth + 1)) :
    leftSize size ≤ 2 ^ depth := by
  have hlog : (size - 1).log2 < depth + 1 := (Nat.log2_lt (by omega)).mpr (by omega)
  exact Nat.pow_le_pow_right (by decide) (Nat.le_of_lt_succ hlog)

theorem rightSize_le_two_pow {size depth : Nat} (htwo : 2 ≤ size) (h : size ≤ 2 ^ (depth + 1)) :
    size - leftSize size ≤ 2 ^ depth := by
  have hleft := leftSize_le_two_pow htwo h
  have hhalf := le_two_mul_leftSize htwo
  omega

end Tree

namespace Words

theorem exists_leftSize? {size : UInt64} (h : 2 ≤ size.toNat) :
    ∃ left, leftSize? size = some left ∧ left.toNat = Tree.leftSize size.toNat := by
  have hone : (1 : UInt64).toNat ≤ size.toNat := Nat.le_of_succ_le h
  obtain ⟨last, hlast, hlastNat⟩ := exists_sub? hone
  have hlastNat : last.toNat = size.toNat - 1 := hlastNat
  have hleft : Tree.leftSize size.toNat < UInt64.size :=
    Nat.lt_trans (Tree.leftSize_lt h) size.toNat_lt
  have hlevel : last.toNat.log2 < 64 := (Nat.log2_lt (by omega)).mpr last.toNat_lt
  have hshift : (1 : UInt64).toNat <<< last.toNat.log2 = Tree.leftSize size.toNat := by
    rw [hlastNat, Nat.shiftLeft_eq]
    exact Nat.one_mul _
  obtain ⟨left, hshifted, hleftNat⟩ := exists_shiftLeft? hlevel (hshift ▸ hleft)
  refine ⟨left, ?_, hleftNat.trans hshift⟩
  rw [leftSize?, hlast, Option.bind_eq_bind, Option.bind_some, log2?_eq (by omega)]
  exact hshifted

/-- The position `middle` divides the subtree from `lo` to `hi`, and `divisions` more divisions
reach the leaves of both halves. -/
structure Divides (divisions : Nat) (lo middle hi : UInt64) : Prop where
  lo_lt : lo.toNat < middle.toNat
  lt_hi : middle.toNat < hi.toNat
  left_eq : middle.toNat - lo.toNat = Tree.leftSize (hi.toNat - lo.toNat)
  left_le : middle.toNat - lo.toNat ≤ 2 ^ divisions
  right_le : hi.toNat - middle.toNat ≤ 2 ^ divisions

/-- A subtree of two leaves or more is divided. -/
theorem exists_middle? {divisions : Nat} {lo hi : UInt64} (h : lo.toNat + 2 ≤ hi.toNat)
    (hsize : hi.toNat - lo.toNat ≤ 2 ^ (divisions + 1)) :
    ∃ middle, middle? lo hi = some middle ∧ Divides divisions lo middle hi := by
  obtain ⟨size, hsome, hsizeNat⟩ := exists_sub? (Nat.le_trans (Nat.le_add_right _ 2) h)
  have htwo : 2 ≤ size.toNat := by omega
  rw [← hsizeNat] at hsize
  have hpos := Tree.leftSize_pos size.toNat
  have hlt := Tree.leftSize_lt htwo
  have hleftLe := Tree.leftSize_le_two_pow htwo hsize
  have hrightLe := Tree.rightSize_le_two_pow htwo hsize
  have hhi : hi.toNat < UInt64.size := hi.toNat_lt
  obtain ⟨left, hleft, hleftNat⟩ := exists_leftSize? htwo
  have hbound : lo.toNat + left.toNat < UInt64.size := by omega
  obtain ⟨middle, hmiddle, hmiddleNat⟩ := exists_add? hbound
  refine ⟨middle, ?_, by omega, by omega, ?_, by omega, by omega⟩
  · rw [middle?, hsome, Option.bind_eq_bind, Option.bind_some, hleft]
    exact hmiddle
  · rw [← hsizeNat]
    omega

theorem Divides.right_eq {divisions : Nat} {lo middle hi : UInt64}
    (h : Divides divisions lo middle hi) :
    hi.toNat - middle.toNat = hi.toNat - lo.toNat - Tree.leftSize (hi.toNat - lo.toNat) := by
  have hlo := h.lo_lt
  have hhi := h.lt_hi
  have hleft := h.left_eq
  omega

/-! ## Consistency proofs -/

/-- A subtree in which the smaller tree ends before it does is divided.  The smaller tree ends in
the left half, or in the right half, which does not begin with the first leaf. -/
theorem exists_divides {divisions : Nat} {old lo hi : UInt64} (hlo : lo.toNat < old.toNat)
    (hhi : old.toNat ≤ hi.toNat) (hne : old ≠ hi)
    (hsize : hi.toNat - lo.toNat ≤ 2 ^ (divisions + 1)) :
    ∃ middle, middle? lo hi = some middle ∧ middle ≠ 0 ∧ Divides divisions lo middle hi ∧
      (old ≤ middle ↔
        old.toNat - lo.toNat ≤ Tree.leftSize (hi.toNat - lo.toNat)) := by
  have hdiffer : old.toNat ≠ hi.toNat := fun hsame => hne (UInt64.toNat_inj.mp hsame)
  obtain ⟨middle, hmiddle, hdivides⟩ :=
    exists_middle? (show lo.toNat + 2 ≤ hi.toNat by omega) hsize
  have hlt := hdivides.lo_lt
  refine ⟨middle, hmiddle, ?_, hdivides, ?_⟩
  · rintro rfl
    exact absurd hlt (Nat.not_lt_zero _)
  · rw [UInt64.le_iff_toNat_le, ← hdivides.left_eq]
    omega

theorem consistencyLength?_eq {divisions : Nat} {old lo hi : UInt64} (hlo : lo.toNat < old.toNat)
    (hhi : old.toNat ≤ hi.toNat) (hsize : hi.toNat - lo.toNat ≤ 2 ^ divisions) :
    consistencyLength? divisions old lo hi =
      some (Tree.consistencyLength (lo = 0) (old.toNat - lo.toNat) (hi.toNat - lo.toNat)) := by
  induction divisions generalizing lo hi with
  | zero =>
    have heq : old = hi := UInt64.toNat_inj.mp (by omega)
    rw [consistencyLength?, if_pos heq, Tree.consistencyLength, dif_pos (.inl (heq ▸ rfl))]
    simp
  | succ divisions ih =>
    rw [consistencyLength?]
    by_cases heq : old = hi
    · rw [if_pos heq, Tree.consistencyLength, dif_pos (.inl (heq ▸ rfl))]
      simp
    · have hdiffer : old.toNat ≠ hi.toNat := fun hsame => heq (UInt64.toNat_inj.mp hsame)
      obtain ⟨middle, hmiddle, hzero, hdivides, hside⟩ := exists_divides hlo hhi heq hsize
      rw [if_neg heq, Tree.consistencyLength, dif_neg (by omega), ← hdivides.right_eq, hmiddle]
      simp only [Option.bind_eq_bind, Option.bind_some, ← hside]
      split
      · rename_i hleft
        rw [ih hlo (UInt64.le_iff_toNat_le.mp hleft) hdivides.left_le, hdivides.left_eq]
        rfl
      · rename_i hright
        have hrightNat := Nat.lt_of_not_le (mt UInt64.le_iff_toNat_le.mpr hright)
        rw [ih hrightNat hhi hdivides.right_le, decide_eq_false hzero, ← hdivides.left_eq,
          Nat.sub_sub_sub_cancel_right (Nat.le_of_lt hdivides.lo_lt)]
        rfl

/-- The hashes that the computations of the old and of the new root lead to. -/
def bothHashes (trees : Tree.HashTree × Tree.HashTree) : Hash × Hash :=
  (trees.1.hash, trees.2.hash)

/-- Where the smaller tree ends with the subtree, there is nothing left to divide. -/
theorem consistencyHashes_self (known : Hash) (divisions : Nat) (proof : List Hash)
    (lo hi : UInt64) (size : Nat) :
    consistencyHashes known divisions proof hi lo hi =
      ofResult (bothHashes <$> Tree.consistencyTrees known proof (lo = 0) size size) := by
  rw [consistencyHashes.eq_def, if_pos rfl]
  by_cases hzero : lo = 0
  · rw [if_pos hzero, decide_eq_true hzero]
    cases proof with
    | nil =>
      rw [Tree.consistencyTrees, if_pos rfl]
      rfl
    | cons hash rest =>
      rw [if_pos (List.cons_ne_nil _ _), Tree.consistencyTrees, if_pos rfl, if_pos (.inl rfl)]
      rfl
  · rw [if_neg hzero, decide_eq_false hzero]
    match proof with
    | [] =>
      rw [Tree.consistencyTrees, if_pos rfl]
      rfl
    | [hash] =>
      rw [Tree.consistencyTrees, if_pos rfl]
      rfl
    | hash :: next :: rest =>
      rw [if_pos (by simp), Tree.consistencyTrees, if_pos rfl,
        if_pos (.inr (List.cons_ne_nil _ _))]
      rfl

theorem consistencyHashes_eq {known : Hash} {divisions : Nat} {proof : List Hash}
    {old lo hi : UInt64} (hlo : lo.toNat < old.toNat) (hhi : old.toNat ≤ hi.toNat)
    (hsize : hi.toNat - lo.toNat ≤ 2 ^ divisions) :
    consistencyHashes known divisions proof old lo hi =
      ofResult (bothHashes <$> Tree.consistencyTrees known proof (lo = 0) (old.toNat - lo.toNat)
        (hi.toNat - lo.toNat)) := by
  induction divisions generalizing proof lo hi with
  | zero =>
    obtain rfl : old = hi := UInt64.toNat_inj.mp (by omega)
    exact consistencyHashes_self known 0 proof lo old _
  | succ divisions ih =>
    by_cases heq : old = hi
    · subst heq
      exact consistencyHashes_self known (divisions + 1) proof lo old _
    · have hdiffer : old.toNat ≠ hi.toNat := fun hsame => heq (UInt64.toNat_inj.mp hsame)
      have hends : old.toNat - lo.toNat ≠ hi.toNat - lo.toNat := by omega
      obtain ⟨middle, hmiddle, hzero, hdivides, hside⟩ := exists_divides hlo hhi heq hsize
      rw [consistencyHashes.eq_def, if_neg heq]
      cases proof with
      | nil =>
        rw [Tree.consistencyTrees, if_neg hends]
        rfl
      | cons hash proof =>
        rw [Tree.consistencyTrees, if_neg hends, ← hdivides.right_eq]
        simp only [some_bind hmiddle, ← hside]
        split
        · rename_i hleft
          rw [ih hlo (UInt64.le_iff_toNat_le.mp hleft) hdivides.left_le, hdivides.left_eq]
          cases Tree.consistencyTrees known proof (lo = 0) (old.toNat - lo.toNat)
            (Tree.leftSize (hi.toNat - lo.toNat)) with
          | error error => rfl
          | ok trees => rfl
        · rename_i hright
          have hrightNat := Nat.lt_of_not_le (mt UInt64.le_iff_toNat_le.mpr hright)
          rw [ih hrightNat hhi hdivides.right_le, decide_eq_false hzero, ← hdivides.left_eq,
            Nat.sub_sub_sub_cancel_right (Nat.le_of_lt hdivides.lo_lt)]
          cases Tree.consistencyTrees known proof false (old.toNat - middle.toNat)
            (hi.toNat - middle.toNat) with
          | error error => rfl
          | ok trees => rfl

theorem treeProofLength_eq (old size : UInt64) :
    treeProofLength old size = ofResult (Tree.treeProofLength old.toNat size.toNat) := by
  apply result_bind_eq_ofResult
  intro _ hsizes
  obtain ⟨hpos, hle⟩ := Tree.checkSizes_eq_ok_iff.mp hsizes
  have hlength : consistencyLength? maxDivisions old 0 size =
      some (Tree.consistencyLength true old.toNat size.toNat) :=
    consistencyLength?_eq hpos hle (Nat.le_of_lt size.toNat_lt)
  exact congrArg (fun length => (liftM length : Run TreeError Nat)) hlength

theorem consistencyHashesOf_eq (proof : List Hash) (size old : UInt64) (oldRoot : Hash) :
    consistencyHashesOf proof size old oldRoot =
      ofResult (bothHashes <$> Tree.consistencyTreesOf proof size.toNat old.toNat oldRoot) := by
  rw [consistencyHashesOf, Tree.consistencyTreesOf, map_bind]
  refine bind_eq_ofResult (treeProofLength_eq old size) fun needed hneeded => ?_
  obtain ⟨_, hsizes, -⟩ := bind_eq_ok_iff.mp hneeded
  obtain ⟨hpos, hle⟩ := Tree.checkSizes_eq_ok_iff.mp hsizes
  rw [apply_ite (bothHashes <$> ·), map_bind]
  refine refuse_eq_ofResult fun _ => ?_
  exact consistencyHashes_eq hpos hle (Nat.le_of_lt size.toNat_lt)

/-- Checking a consistency proof in words never halts. -/
theorem checkTree_eq (proof : List Hash) (size : UInt64) (root : Hash) (old : UInt64)
    (oldRoot : Hash) :
    checkTree proof size root old oldRoot =
      ofResult (Tree.checkTree proof size.toNat root old.toNat oldRoot) := by
  rw [checkTree, consistencyHashesOf_eq, Tree.checkTree]
  cases Tree.consistencyTreesOf proof size.toNat old.toNat oldRoot with
  | error error => rfl
  | ok trees =>
    change (if trees.2.hash = root ∧ trees.1.hash = oldRoot then _ else _) =
      ofResult (if trees.2.hash = root ∧ trees.1.hash = oldRoot then _ else _)
    split
    · rfl
    · rfl

/-! ## Audit paths -/

/-- Whether a subtree is a leaf shows from the position after its first. -/
theorem exists_next? {lo hi : UInt64} (h : lo.toNat < hi.toNat) :
    ∃ next, add? lo 1 = some next ∧ (next = hi ↔ hi.toNat - lo.toNat ≤ 1) := by
  have hhi : hi.toNat < UInt64.size := hi.toNat_lt
  have hone : (1 : UInt64).toNat = 1 := rfl
  obtain ⟨next, hnext, hnextNat⟩ := @exists_add? lo 1 (by omega)
  refine ⟨next, hnext, ?_⟩
  rw [← UInt64.toNat_inj, hnextNat]
  omega

theorem auditHash_eq {leaf : Hash} {n : UInt64} {divisions : Nat} {path : List Hash}
    {lo hi : UInt64} (hlo : lo.toNat ≤ n.toNat) (hhi : n.toNat < hi.toNat)
    (hsize : hi.toNat - lo.toNat ≤ 2 ^ divisions) :
    auditHash leaf n divisions path lo hi =
      ofResult (Tree.HashTree.hash <$> Tree.auditTree leaf path (hi.toNat - lo.toNat)
        (n.toNat - lo.toNat)) := by
  induction path generalizing divisions lo hi with
  | nil =>
    obtain ⟨next, hnext, hleaf⟩ := exists_next? (Nat.lt_of_le_of_lt hlo hhi)
    rw [auditHash, some_bind hnext, Tree.auditTree]
    simp only [hleaf]
    split
    · rfl
    · rfl
  | cons sibling path ih =>
    obtain ⟨next, hnext, hleaf⟩ := exists_next? (Nat.lt_of_le_of_lt hlo hhi)
    by_cases hone : hi.toNat - lo.toNat ≤ 1
    · rw [Tree.auditTree, if_pos hone]
      cases divisions with
      | zero =>
        rw [auditHash, some_bind hnext, if_pos (hleaf.mpr hone)]
        rfl
      | succ divisions =>
        rw [auditHash, some_bind hnext, if_pos (hleaf.mpr hone)]
        rfl
    · cases divisions with
      | zero => exact absurd hsize hone
      | succ divisions =>
        obtain ⟨middle, hmiddle, hdivides⟩ :=
          exists_middle? (show lo.toNat + 2 ≤ hi.toNat by omega) hsize
        have hside : n < middle ↔
            n.toNat - lo.toNat < Tree.leftSize (hi.toNat - lo.toNat) := by
          have hloMiddle := hdivides.lo_lt
          rw [UInt64.lt_iff_toNat_lt, ← hdivides.left_eq]
          omega
        rw [auditHash, some_bind hnext, if_neg (mt hleaf.mp hone), some_bind hmiddle,
          Tree.auditTree, if_neg hone, ← hdivides.right_eq]
        simp only [← hside]
        split
        · rename_i hleft
          rw [ih hlo (UInt64.lt_iff_toNat_lt.mp hleft) hdivides.left_le, hdivides.left_eq]
          cases Tree.auditTree leaf path (Tree.leftSize (hi.toNat - lo.toNat))
            (n.toNat - lo.toNat) with
          | error error => rfl
          | ok tree => rfl
        · rename_i hright
          have hrightNat := Nat.le_of_not_lt (mt UInt64.lt_iff_toNat_lt.mpr hright)
          rw [ih hrightNat hhi hdivides.right_le, ← hdivides.left_eq,
            Nat.sub_sub_sub_cancel_right (Nat.le_of_lt hdivides.lo_lt)]
          cases Tree.auditTree leaf path (hi.toNat - middle.toNat) (n.toNat - middle.toNat) with
          | error error => rfl
          | ok tree => rfl

/-- Checking an audit path in words never halts. -/
theorem checkRecord_eq (proof : List Hash) (size : UInt64) (root : Hash) (n : UInt64)
    (leaf : Hash) :
    checkRecord proof size root n leaf =
      ofResult (Tree.checkRecord proof size.toNat root n.toNat leaf) := by
  rw [checkRecord, Tree.checkRecord]
  simp only [UInt64.le_iff_toNat_le]
  refine refuse_eq_ofResult fun hinside => ?_
  have hhash : auditHash leaf n maxDivisions proof.reverse 0 size =
      ofResult (Tree.HashTree.hash <$> Tree.auditTree leaf proof.reverse size.toNat n.toNat) :=
    auditHash_eq (Nat.zero_le _) (Nat.lt_of_not_le hinside) (Nat.le_of_lt size.toNat_lt)
  rw [hhash]
  cases Tree.auditTree leaf proof.reverse size.toNat n.toNat with
  | error error => rfl
  | ok tree =>
    change (if tree.hash = root then _ else _) = ofResult (if tree.hash = root then _ else _)
    split
    · rfl
    · rfl

/-! ## Batch proofs -/

/-- Positions that increase and lie from `lo` to `hi`. -/
structure Within (lo hi : UInt64) (positions : List UInt64) : Prop where
  increasing : positions.Pairwise (· < ·)
  bounds : ∀ position ∈ positions, lo ≤ position ∧ position < hi

/-- Leaves at positions that are counted from `lo`. -/
def placedFrom (lo : UInt64) (positions : List UInt64) (leaves : List Hash) :
    List Tree.PlacedLeaf :=
  List.zipWith (fun position leaf => ⟨position.toNat - lo.toNat, leaf⟩) positions leaves

theorem exists_of_mem_placedFrom {lo : UInt64} {positions : List UInt64} {leaves : List Hash}
    {placed : Tree.PlacedLeaf} (h : placed ∈ placedFrom lo positions leaves) :
    ∃ position ∈ positions, placed.position = position.toNat - lo.toNat := by
  obtain ⟨place, hplace, rfl⟩ := List.mem_iff_getElem.mp h
  rw [placedFrom, List.length_zipWith] at hplace
  refine ⟨positions[place], List.getElem_mem (by omega), ?_⟩
  simp [placedFrom]

theorem countBefore_cons (middle first : UInt64) (rest : List UInt64) :
    countBefore middle (first :: rest) =
      if first < middle then countBefore middle rest + 1 else 0 := by
  by_cases h : first < middle
  · rw [if_pos h, countBefore, List.takeWhile_cons_of_pos (by simpa using h)]
    rfl
  · rw [if_neg h, countBefore, List.takeWhile_cons_of_neg (by simpa using h)]
    rfl

theorem countBefore_le (middle : UInt64) (positions : List UInt64) :
    countBefore middle positions ≤ positions.length :=
  (List.takeWhile_sublist _).length_le

namespace Within

variable {lo middle hi : UInt64} {positions : List UInt64} {leaves : List Hash}

theorem of_cons {first : UInt64} (h : Within lo hi (first :: positions)) : Within lo hi positions :=
  ⟨h.increasing.of_cons, fun position hposition =>
    h.bounds position (List.mem_cons_of_mem _ hposition)⟩

/-- If the first position lies from a division on, so do all. -/
theorem le_of_le_first {first : UInt64} (h : Within lo hi (first :: positions))
    (hfirst : middle ≤ first) : ∀ position ∈ first :: positions, middle ≤ position := by
  intro position hposition
  rcases List.mem_cons.mp hposition with rfl | hlater
  · exact hfirst
  · exact UInt64.le_trans hfirst
      (UInt64.le_of_lt ((List.pairwise_cons.mp h.increasing).1 position hlater))

theorem left (h : Within lo hi positions) :
    Within lo middle (positions.take (countBefore middle positions)) := by
  refine ⟨h.increasing.sublist (List.take_sublist _ _), ?_⟩
  intro position hposition
  refine ⟨(h.bounds position (List.mem_of_mem_take hposition)).1, ?_⟩
  induction positions with
  | nil => simp at hposition
  | cons first rest ih =>
    rw [countBefore_cons] at hposition
    split at hposition
    · rename_i hbefore
      rcases List.mem_cons.mp hposition with rfl | hlater
      · exact hbefore
      · exact ih h.of_cons hlater
    · simp at hposition

theorem right (h : Within lo hi positions) :
    Within middle hi (positions.drop (countBefore middle positions)) := by
  refine ⟨h.increasing.sublist (List.drop_sublist _ _), ?_⟩
  intro position hposition
  refine ⟨?_, (h.bounds position (List.mem_of_mem_drop hposition)).2⟩
  induction positions with
  | nil => simp at hposition
  | cons first rest ih =>
    rw [countBefore_cons] at hposition
    split at hposition
    · exact ih h.of_cons hposition
    · rename_i hafter
      exact h.le_of_le_first (UInt64.not_lt.mp hafter) position hposition

/-- If the first position lies from a division on, so do all leaves. -/
theorem le_position_of_le_first {first : UInt64} (h : Within lo hi (first :: positions))
    (hfirst : middle ≤ first) {placed : Tree.PlacedLeaf}
    (hplaced : placed ∈ placedFrom lo (first :: positions) leaves) :
    middle.toNat - lo.toNat ≤ placed.position := by
  obtain ⟨position, hposition, heq⟩ := exists_of_mem_placedFrom hplaced
  rw [heq]
  exact Nat.sub_le_sub_right
    (UInt64.le_iff_toNat_le.mp (h.le_of_le_first hfirst position hposition)) _

theorem position_lt_iff {first : UInt64} (h : Within lo hi (first :: positions)) :
    first.toNat - lo.toNat < middle.toNat - lo.toNat ↔ first < middle := by
  have hfirst := UInt64.le_iff_toNat_le.mp (h.bounds first List.mem_cons_self).1
  rw [UInt64.lt_iff_toNat_lt]
  omega

/-- The leaves of the left half are those at the positions before the division. -/
theorem leftLeaves_eq (h : Within lo hi positions) :
    Tree.leftLeaves (middle.toNat - lo.toNat) (placedFrom lo positions leaves) =
      placedFrom lo (positions.take (countBefore middle positions))
        (leaves.take (countBefore middle positions)) := by
  unfold Tree.leftLeaves
  induction positions generalizing leaves with
  | nil => simp [placedFrom]
  | cons first rest ih =>
    cases leaves with
    | nil => simp [placedFrom]
    | cons leaf leaves =>
      rw [countBefore_cons]
      by_cases hbefore : first < middle
      · have hkept := h.position_lt_iff.mpr hbefore
        have hrest := @ih leaves h.of_cons
        unfold placedFrom at hrest ⊢
        rw [if_pos hbefore, List.take_succ_cons, List.take_succ_cons, List.zipWith_cons_cons,
          List.zipWith_cons_cons, List.filter_cons_of_pos (by simpa using hkept), hrest]
      · rw [if_neg hbefore, List.take_zero, List.take_zero, List.filter_eq_nil_iff.mpr]
        · rfl
        · intro placed hplaced
          have hle := h.le_position_of_le_first (UInt64.not_lt.mp hbefore) hplaced
          simpa using hle

/-- The leaves of the right half are those at the positions from the division on. -/
theorem rightLeaves_eq (h : Within lo hi positions) (hlo : lo.toNat ≤ middle.toNat) :
    Tree.rightLeaves (middle.toNat - lo.toNat) (placedFrom lo positions leaves) =
      placedFrom middle (positions.drop (countBefore middle positions))
        (leaves.drop (countBefore middle positions)) := by
  unfold Tree.rightLeaves
  induction positions generalizing leaves with
  | nil => simp [placedFrom]
  | cons first rest ih =>
    cases leaves with
    | nil => simp [placedFrom]
    | cons leaf leaves =>
      rw [countBefore_cons]
      by_cases hbefore : first < middle
      · have hkept := Nat.not_le_of_lt (h.position_lt_iff.mpr hbefore)
        have hrest := @ih leaves h.of_cons
        rw [if_pos hbefore, List.drop_succ_cons, List.drop_succ_cons, ← hrest]
        unfold placedFrom
        rw [List.zipWith_cons_cons, List.filter_cons_of_neg (by simpa using hkept)]
      · rw [if_neg hbefore, List.drop_zero, List.drop_zero, List.filter_eq_self.mpr]
        · simp only [placedFrom, List.map_zipWith, Nat.sub_sub_sub_cancel_right hlo]
        · intro placed hplaced
          have hle := h.le_position_of_le_first (UInt64.not_lt.mp hbefore) hplaced
          simpa using hle

end Within

/-- Positions that are accepted increase and lie within a tree that is not empty. -/
theorem within_of_checkPositions {size : UInt64} {positions : List UInt64}
    (h : Tree.checkPositions size.toNat (positions.map (·.toNat)) = .ok ()) :
    1 ≤ size.toNat ∧ Within 0 size positions := by
  obtain ⟨hpos, hincreasing, hbelow⟩ := Tree.checkPositions_eq_ok_iff.mp h
  refine ⟨hpos, (List.pairwise_map.mp hincreasing).imp UInt64.lt_iff_toNat_lt.mpr, ?_⟩
  intro position hposition
  exact ⟨UInt64.zero_le, UInt64.lt_iff_toNat_lt.mpr (hbelow _ (List.mem_map_of_mem hposition))⟩

/-- The hash that a computation leads to, and the hashes of the proof that are left. -/
def hashAndRest (result : Tree.HashTree × List Hash) : Hash × List Hash :=
  (result.1.hash, result.2)

theorem batchHash_nil (divisions : Nat) (lo hi : UInt64) (leaves proof : List Hash) (size : Nat) :
    batchHash divisions lo hi [] leaves proof =
      ofResult (hashAndRest <$> Tree.batchTree size [] proof) := by
  rw [batchHash.eq_def, if_pos rfl]
  cases proof with
  | nil =>
    rw [Tree.batchTree]
    rfl
  | cons hash rest =>
    rw [Tree.batchTree_nil]
    rfl

theorem exists_placedFrom_eq_cons (lo : UInt64) {positions : List UInt64} {leaves : List Hash}
    (hsome : positions ≠ []) (hlength : positions.length = leaves.length) :
    ∃ first others, placedFrom lo positions leaves = first :: others ∧
      member? 0 leaves = some first.leaf := by
  match positions, leaves with
  | position :: positions, leaf :: leaves => exact ⟨_, _, List.zipWith_cons_cons, rfl⟩

theorem batchHash_leaf {divisions : Nat} {lo hi : UInt64} {positions : List UInt64}
    {leaves proof : List Hash} (hlength : positions.length = leaves.length)
    (hlo : lo.toNat < hi.toNat) (hone : hi.toNat - lo.toNat ≤ 1) :
    batchHash divisions lo hi positions leaves proof =
      ofResult (hashAndRest <$>
        Tree.batchTree (hi.toNat - lo.toNat) (placedFrom lo positions leaves) proof) := by
  by_cases hsome : positions = []
  · subst hsome
    exact batchHash_nil divisions lo hi leaves proof _
  · obtain ⟨next, hnext, hleaf⟩ := exists_next? hlo
    obtain ⟨first, others, hplaced, hmember⟩ := exists_placedFrom_eq_cons lo hsome hlength
    rw [batchHash.eq_def, if_neg hsome, some_bind hnext, if_pos (hleaf.mpr hone),
      some_bind hmember, hplaced, Tree.batchTree_of_le_one hone]
    rfl

theorem batchHash_eq {divisions : Nat} {lo hi : UInt64} {positions : List UInt64}
    {leaves proof : List Hash} (hwithin : Within lo hi positions)
    (hlength : positions.length = leaves.length) (hlo : lo.toNat < hi.toNat)
    (hsize : hi.toNat - lo.toNat ≤ 2 ^ divisions) :
    batchHash divisions lo hi positions leaves proof =
      ofResult (hashAndRest <$>
        Tree.batchTree (hi.toNat - lo.toNat) (placedFrom lo positions leaves) proof) := by
  induction divisions generalizing lo hi positions leaves proof with
  | zero => exact batchHash_leaf hlength hlo hsize
  | succ divisions ih =>
    by_cases hone : hi.toNat - lo.toNat ≤ 1
    · exact batchHash_leaf hlength hlo hone
    by_cases hsome : positions = []
    · subst hsome
      exact batchHash_nil _ lo hi leaves proof _
    obtain ⟨next, hnext, hleaf⟩ := exists_next? hlo
    obtain ⟨middle, hmiddle, hdivides⟩ :=
      exists_middle? (show lo.toNat + 2 ≤ hi.toNat by omega) hsize
    obtain ⟨first, others, hplaced, -⟩ := exists_placedFrom_eq_cons lo hsome hlength
    have hcount := countBefore_le middle positions
    have hcountLeaves := hlength ▸ hcount
    have hlengthLeft : (positions.take (countBefore middle positions)).length =
        (leaves.take (countBefore middle positions)).length := by
      simp only [List.length_take, hlength]
    have hlengthRight : (positions.drop (countBefore middle positions)).length =
        (leaves.drop (countBefore middle positions)).length := by
      simp only [List.length_drop, hlength]
    -- the number of leaves in each half is the same in words
    have hlo := Nat.le_of_lt hdivides.lo_lt
    rw [hplaced, Tree.batchTree_of_two_le (by omega), ← hplaced, ← hdivides.left_eq,
      hwithin.leftLeaves_eq, hwithin.rightLeaves_eq hlo, Nat.sub_sub_sub_cancel_right hlo]
    rw [batchHash.eq_def, if_neg hsome, some_bind hnext, if_neg (mt hleaf.mp hone)]
    simp only [some_bind hmiddle, some_bind (take?_eq hcount), some_bind (take?_eq hcountLeaves),
      some_bind (drop?_eq hcount), some_bind (drop?_eq hcountLeaves)]
    rw [ih hwithin.left hlengthLeft hdivides.lo_lt hdivides.left_le]
    cases Tree.batchTree (middle.toNat - lo.toNat)
      (placedFrom lo (positions.take (countBefore middle positions))
        (leaves.take (countBefore middle positions))) proof with
    | error error => rfl
    | ok left =>
      obtain ⟨left, rest⟩ := left
      change (batchHash divisions middle hi _ _ rest >>= _) = _
      rw [ih hwithin.right hlengthRight hdivides.lt_hi hdivides.right_le]
      cases hright : Tree.batchTree (hi.toNat - middle.toNat)
        (placedFrom middle (positions.drop (countBefore middle positions))
          (leaves.drop (countBefore middle positions))) rest with
      | error error =>
        simp only [bind, Except.bind, hright]
        rfl
      | ok right =>
        simp only [bind, Except.bind, hright]
        rfl

/-- Evaluating a batch proof in words never halts. -/
theorem evaluateBatch_eq (size : UInt64) (positions : List UInt64) (leaves proof : List Hash) :
    evaluateBatch size positions leaves proof =
      ofResult (Tree.evaluateBatch size.toNat (positions.map (·.toNat)) leaves proof) := by
  rw [evaluateBatch, Tree.evaluateBatch, bind_pure_comp, Tree.batchTreeOf, map_bind]
  refine result_bind_eq_ofResult fun _ hchecked => ?_
  obtain ⟨hpos, hwithin⟩ := within_of_checkPositions hchecked
  rw [apply_ite (Tree.HashTree.hash <$> ·), map_bind, List.length_map]
  refine refuse_eq_ofResult fun hlength => ?_
  have hplaced : placedFrom 0 positions leaves =
      List.zipWith Tree.PlacedLeaf.mk (positions.map (·.toNat)) leaves := by
    rw [placedFrom, List.zipWith_map_left]
    rfl
  have hhash : batchHash maxDivisions 0 size positions leaves proof =
      ofResult (hashAndRest <$>
        Tree.batchTree size.toNat (placedFrom 0 positions leaves) proof) :=
    batchHash_eq hwithin (not_not.mp hlength) hpos (Nat.le_of_lt size.toNat_lt)
  beta_reduce
  rw [hhash, hplaced]
  cases Tree.batchTree size.toNat
    (List.zipWith Tree.PlacedLeaf.mk (positions.map (·.toNat)) leaves) proof with
  | error error => rfl
  | ok result =>
    change (if result.2 = [] then _ else _) =
      ofResult (Tree.HashTree.hash <$> if result.2 = [] then _ else _)
    split
    · rfl
    · rfl

end Words

end KeyTransparency
