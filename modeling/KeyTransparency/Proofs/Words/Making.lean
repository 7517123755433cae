import KeyTransparency.Proofs.Tree.Inclusion
import KeyTransparency.Proofs.Words.Storage
import KeyTransparency.Words.Making

/-!
# Making proofs in words never halts

A subtree that is reached by dividing a tree begins at a multiple of every power of two that is not
greater than it, so the places of its hashes are found.  On the way down both walks come to the same
subtrees in the same order.  By induction on the divisions that are left, each kind of proof is made
of as many hashes as were asked for, and it is the proof that numbers have.
-/

namespace KeyTransparency.Words

variable {α β : Type} {size divisions : Nat} {lo middle hi : UInt64}

/-- The making of a proof goes on from what an operation yields. -/
theorem some_bind_making {operation : Option α} {a : α} (h : operation = some a)
    (next : α → Making β) : (liftM operation >>= next : Making β) = next a := by
  subst h
  rfl

/-! ## The subtrees of a tree -/

theorem Divides.add_left (h : Divides divisions lo middle hi) :
    lo.toNat + Tree.leftSize (hi.toNat - lo.toNat) = middle.toNat := by
  rw [← h.left_eq, Nat.add_sub_of_le (Nat.le_of_lt h.lo_lt)]

/-- The leaves from `lo` to `hi` are a subtree of a tree of `size` leaves, and `divisions` more
divisions reach its leaves. -/
structure SubtreeOf (size divisions : Nat) (lo hi : UInt64) : Prop where
  aligned : Tree.Aligned lo.toNat (hi.toNat - lo.toNat)
  lo_lt : lo.toNat < hi.toNat
  hi_le : hi.toNat ≤ size
  leaves_le : hi.toNat - lo.toNat ≤ 2 ^ divisions
  size_le : size ≤ maxLeaves

theorem subtreeOf_self {size : UInt64} (hpos : 1 ≤ size.toNat) (hsize : size.toNat ≤ maxLeaves) :
    SubtreeOf size.toNat maxDivisions 0 size where
  aligned := .zero _
  lo_lt := hpos
  hi_le := Nat.le_refl _
  leaves_le := Nat.le_of_lt size.toNat_lt
  size_le := hsize

namespace SubtreeOf

theorem two_le (h : SubtreeOf size divisions lo hi) (hone : ¬hi.toNat - lo.toNat ≤ 1) :
    lo.toNat + 2 ≤ hi.toNat := by
  have hlo := h.lo_lt
  omega

theorem left (h : SubtreeOf size (divisions + 1) lo hi) (hdivides : Divides divisions lo middle hi) :
    SubtreeOf size divisions lo middle where
  aligned := by
    have hlo := hdivides.lo_lt
    have hhi := hdivides.lt_hi
    rw [hdivides.left_eq]
    exact h.aligned.left (by omega)
  lo_lt := hdivides.lo_lt
  hi_le := Nat.le_trans (Nat.le_of_lt hdivides.lt_hi) h.hi_le
  leaves_le := hdivides.left_le
  size_le := h.size_le

theorem right (h : SubtreeOf size (divisions + 1) lo hi)
    (hdivides : Divides divisions lo middle hi) : SubtreeOf size divisions middle hi where
  aligned := by
    have hlo := hdivides.lo_lt
    have hhi := hdivides.lt_hi
    rw [hdivides.right_eq, ← hdivides.add_left]
    exact h.aligned.right (by omega)
  lo_lt := hdivides.lt_hi
  hi_le := h.hi_le
  leaves_le := hdivides.right_le
  size_le := h.size_le

/-- The hash of a subtree is listed and computed. -/
theorem realizes (h : SubtreeOf size divisions lo hi) :
    Realizes size (subtreeIndexes? lo hi) (rangeHash lo hi)
      (.rangeHash lo.toNat (hi.toNat - lo.toNat)) :=
  realizes_rangeHash h.aligned h.lo_lt h.hi_le h.size_le

end SubtreeOf

/-! ## Audit paths -/

theorem realizes_audit_leaf {n : UInt64} (h : SubtreeOf size divisions lo hi)
    (hone : hi.toNat - lo.toNat ≤ 1) :
    Realizes size (auditIndexes? divisions lo hi n) (auditPath divisions lo hi n)
      (Tree.auditPlan lo.toNat (hi.toNat - lo.toNat) (n.toNat - lo.toNat)) := by
  obtain ⟨next, hnext, hleaf⟩ := exists_next? h.lo_lt
  have hindexes : auditIndexes? divisions lo hi n = some := by
    funext need
    rw [auditIndexes?.eq_def, hnext, Option.bind_eq_bind, Option.bind_some,
      if_pos (hleaf.mpr hone)]
    rfl
  have hpath : auditPath divisions lo hi n = pure [] := by
    rw [auditPath.eq_def, some_bind_making hnext, if_pos (hleaf.mpr hone)]
  rw [hindexes, hpath, Tree.auditPlan, dif_pos hone]
  exact .pure size []

theorem realizes_audit {n : UInt64} (h : SubtreeOf size divisions lo hi)
    (hlo : lo.toNat ≤ n.toNat) (hhi : n.toNat < hi.toNat) :
    Realizes size (auditIndexes? divisions lo hi n) (auditPath divisions lo hi n)
      (Tree.auditPlan lo.toNat (hi.toNat - lo.toNat) (n.toNat - lo.toNat)) := by
  induction divisions generalizing lo hi with
  | zero => exact realizes_audit_leaf h h.leaves_le
  | succ divisions ih =>
    by_cases hone : hi.toNat - lo.toNat ≤ 1
    · exact realizes_audit_leaf h hone
    obtain ⟨next, hnext, hleaf⟩ := exists_next? h.lo_lt
    obtain ⟨middle, hmiddle, hdivides⟩ := exists_middle? (h.two_le hone) h.leaves_le
    have hmore := mt hleaf.mp hone
    rw [Tree.auditPlan, dif_neg hone, ← hdivides.right_eq, hdivides.add_left, ← hdivides.left_eq]
    by_cases hside : n < middle
    · have hleft := UInt64.lt_iff_toNat_lt.mp hside
      have hindexes : auditIndexes? (divisions + 1) lo hi n = fun need =>
          auditIndexes? divisions lo middle n need >>= subtreeIndexes? middle hi := by
        funext need
        rw [auditIndexes?, hnext]
        simp only [Option.bind_eq_bind, Option.bind_some, if_neg hmore, hmiddle, if_pos hside]
      have hpath : auditPath (divisions + 1) lo hi n = do
          let path ← auditPath divisions lo middle n
          let right ← rangeHash middle hi
          return path ++ [right] := by
        rw [auditPath, some_bind_making hnext, if_neg hmore, some_bind_making hmiddle, if_pos hside]
      rw [hindexes, hpath, if_pos (Nat.sub_lt_sub_right hlo hleft)]
      exact (ih (h.left hdivides) hlo hleft).both (h.right hdivides).realizes _
    · have hright := Nat.le_of_not_lt (mt UInt64.lt_iff_toNat_lt.mpr hside)
      have hindexes : auditIndexes? (divisions + 1) lo hi n = fun need =>
          subtreeIndexes? lo middle need >>= auditIndexes? divisions middle hi n := by
        funext need
        rw [auditIndexes?, hnext]
        simp only [Option.bind_eq_bind, Option.bind_some, if_neg hmore, hmiddle, if_neg hside]
      have hpath : auditPath (divisions + 1) lo hi n = do
          let left ← rangeHash lo middle
          let path ← auditPath divisions middle hi n
          return path ++ [left] := by
        rw [auditPath, some_bind_making hnext, if_neg hmore, some_bind_making hmiddle, if_neg hside]
      rw [hindexes, hpath, if_neg (Nat.not_lt.mpr (Nat.sub_le_sub_right hright _)),
        Nat.sub_sub_sub_cancel_right (Nat.le_of_lt hdivides.lo_lt)]
      exact (h.left hdivides).realizes.both (ih (h.right hdivides) hright hhi) _

/-- Making an audit path in words never halts. -/
theorem proveRecord_eq {size : UInt64} (hsize : size.toNat ≤ maxLeaves) (n : UInt64)
    (reader : Tree.HashReader) :
    proveRecord size n reader = ofResult (Tree.proveRecord size.toNat n.toNat reader) := by
  rw [proveRecord, Tree.proveRecord]
  simp only [UInt64.le_iff_toNat_le]
  split
  · rfl
  · rename_i hinside
    have hn : n.toNat < size.toNat := Nat.lt_of_not_le hinside
    have hself := subtreeOf_self (Nat.one_le_of_lt hn) hsize
    exact (realizes_audit hself (Nat.zero_le _) hn).make_eq reader

/-! ## Consistency proofs -/

/-- Where the smaller tree ends with the subtree, there is nothing left to divide. -/
theorem realizes_consistency_self (h : SubtreeOf size divisions lo hi) :
    Realizes size (consistencyIndexes? divisions lo hi hi) (consistencyProof divisions lo hi hi)
      (Tree.consistencyPlan (lo = 0) lo.toNat (hi.toNat - lo.toNat) (hi.toNat - lo.toNat)) := by
  rw [Tree.consistencyPlan, dif_pos (.inl rfl)]
  by_cases hzero : lo = 0
  · have hindexes : consistencyIndexes? divisions lo hi hi = some := by
      funext need
      rw [consistencyIndexes?.eq_def, if_pos rfl, if_pos hzero]
    have hproof : consistencyProof divisions lo hi hi = pure [] := by
      rw [consistencyProof.eq_def, if_pos rfl, if_pos hzero]
    rw [hindexes, hproof, if_pos (decide_eq_true hzero)]
    exact .pure size []
  · have hindexes : consistencyIndexes? divisions lo hi hi = subtreeIndexes? lo hi := by
      funext need
      rw [consistencyIndexes?.eq_def, if_pos rfl, if_neg hzero]
    have hproof : consistencyProof divisions lo hi hi = do
        let hash ← rangeHash lo hi
        return [hash] := by
      rw [consistencyProof.eq_def, if_pos rfl, if_neg hzero]
    rw [hindexes, hproof, if_neg (by simpa using hzero)]
    exact h.realizes.map _

theorem realizes_consistency {old : UInt64} (h : SubtreeOf size divisions lo hi)
    (hlo : lo.toNat < old.toNat) (hhi : old.toNat ≤ hi.toNat) :
    Realizes size (consistencyIndexes? divisions lo hi old) (consistencyProof divisions lo hi old)
      (Tree.consistencyPlan (lo = 0) lo.toNat (old.toNat - lo.toNat)
        (hi.toNat - lo.toNat)) := by
  induction divisions generalizing lo hi with
  | zero =>
    have hleaf := h.leaves_le
    obtain rfl : old = hi := UInt64.toNat_inj.mp (by omega)
    exact realizes_consistency_self h
  | succ divisions ih =>
    by_cases heq : old = hi
    · subst heq
      exact realizes_consistency_self h
    have hdiffer : old.toNat ≠ hi.toNat := fun hsame => heq (UInt64.toNat_inj.mp hsame)
    obtain ⟨middle, hmiddle, hzero, hdivides, hside⟩ := exists_divides hlo hhi heq h.leaves_le
    rw [Tree.consistencyPlan, dif_neg (by omega), ← hdivides.right_eq, hdivides.add_left]
    by_cases hold : old ≤ middle
    · have hindexes : consistencyIndexes? (divisions + 1) lo hi old = fun need =>
          consistencyIndexes? divisions lo middle old need >>= subtreeIndexes? middle hi := by
        funext need
        rw [consistencyIndexes?, if_neg heq, hmiddle, Option.bind_eq_bind, Option.bind_some,
          if_pos hold]
      have hproof : consistencyProof (divisions + 1) lo hi old = do
          let proof ← consistencyProof divisions lo middle old
          let right ← rangeHash middle hi
          return proof ++ [right] := by
        rw [consistencyProof, if_neg heq, some_bind_making hmiddle, if_pos hold]
      rw [hindexes, hproof, if_pos (hside.mp hold), ← hdivides.left_eq]
      exact (ih (h.left hdivides) hlo (UInt64.le_iff_toNat_le.mp hold)).both
        (h.right hdivides).realizes _
    · have hright := Nat.lt_of_not_le (mt UInt64.le_iff_toNat_le.mpr hold)
      have hindexes : consistencyIndexes? (divisions + 1) lo hi old = fun need =>
          subtreeIndexes? lo middle need >>= consistencyIndexes? divisions middle hi old := by
        funext need
        rw [consistencyIndexes?, if_neg heq, hmiddle, Option.bind_eq_bind, Option.bind_some,
          if_neg hold]
      have hproof : consistencyProof (divisions + 1) lo hi old = do
          let left ← rangeHash lo middle
          let proof ← consistencyProof divisions middle hi old
          return proof ++ [left] := by
        rw [consistencyProof, if_neg heq, some_bind_making hmiddle, if_neg hold]
      have hlater := ih (h.right hdivides) hright hhi
      rw [decide_eq_false hzero] at hlater
      rw [hindexes, hproof, if_neg (mt hside.mpr hold), ← hdivides.left_eq,
        Nat.sub_sub_sub_cancel_right (Nat.le_of_lt hdivides.lo_lt)]
      exact (h.left hdivides).realizes.both hlater _

/-- Making a consistency proof in words never halts. -/
theorem proveTree_eq {size : UInt64} (hsize : size.toNat ≤ maxLeaves) (old : UInt64)
    (reader : Tree.HashReader) :
    proveTree size old reader = ofResult (Tree.proveTree size.toNat old.toNat reader) := by
  apply result_bind_eq_ofResult
  intro _ hsizes
  obtain ⟨hpos, hle⟩ := Tree.checkSizes_eq_ok_iff.mp hsizes
  have hself := subtreeOf_self (Nat.le_trans hpos hle) hsize
  exact (realizes_consistency hself hpos hle).make_eq reader

/-! ## Batch proofs -/

/-- Positions counted from `lo`. -/
def offsets (lo : UInt64) (positions : List UInt64) : List Nat :=
  positions.map fun position => position.toNat - lo.toNat

theorem offsets_eq_nil_iff {positions : List UInt64} : offsets lo positions = [] ↔ positions = [] :=
  List.map_eq_nil_iff

namespace Within

variable {positions : List UInt64}

/-- The positions before a division are the first ones. -/
theorem filter_lt (h : Within lo hi positions) :
    positions.filter (· < middle) = positions.take (countBefore middle positions) := by
  conv_lhs => rw [← List.take_append_drop (countBefore middle positions) positions]
  rw [List.filter_append, List.filter_eq_self.mpr, List.filter_eq_nil_iff.mpr, List.append_nil]
  · intro position hposition
    simpa using (h.right.bounds position hposition).1
  · intro position hposition
    simpa using (h.left.bounds position hposition).2

/-- The positions from a division on are the last ones. -/
theorem filter_le (h : Within lo hi positions) :
    positions.filter (middle ≤ ·) = positions.drop (countBefore middle positions) := by
  conv_lhs => rw [← List.take_append_drop (countBefore middle positions) positions]
  rw [List.filter_append, List.filter_eq_nil_iff.mpr, List.filter_eq_self.mpr, List.nil_append]
  · intro position hposition
    simpa using (h.right.bounds position hposition).1
  · intro position hposition
    simpa using (h.left.bounds position hposition).2

theorem leftPositions_eq (h : Within lo hi positions) :
    Tree.leftPositions (middle.toNat - lo.toNat) (offsets lo positions) =
      offsets lo (positions.take (countBefore middle positions)) := by
  rw [Tree.leftPositions, offsets, List.filter_map, offsets, ← h.filter_lt]
  congr 1
  refine List.filter_congr ?_
  intro position hposition
  have hlo := UInt64.le_iff_toNat_le.mp (h.bounds position hposition).1
  simp only [Function.comp_apply, UInt64.lt_iff_toNat_lt, decide_eq_decide]
  omega

theorem rightPositions_eq (h : Within lo hi positions) (hlo : lo.toNat ≤ middle.toNat) :
    Tree.rightPositions (middle.toNat - lo.toNat) (offsets lo positions) =
      offsets middle (positions.drop (countBefore middle positions)) := by
  have hkept : positions.filter
      ((middle.toNat - lo.toNat ≤ ·) ∘ fun position : UInt64 => position.toNat - lo.toNat) =
      positions.filter (middle ≤ ·) := by
    refine List.filter_congr ?_
    intro position hposition
    have hfirst := UInt64.le_iff_toNat_le.mp (h.bounds position hposition).1
    simp only [Function.comp_apply, UInt64.le_iff_toNat_le, decide_eq_decide]
    omega
  rw [Tree.rightPositions, offsets, List.filter_map, hkept, h.filter_le, List.map_map]
  refine List.map_congr_left ?_
  intro position _
  exact Nat.sub_sub_sub_cancel_right hlo

end Within

theorem realizes_batch_nil (h : SubtreeOf size divisions lo hi) :
    Realizes size (batchIndexes? divisions lo hi []) (batchProof divisions lo hi [])
      (Tree.batchPlan lo.toNat (hi.toNat - lo.toNat) (offsets lo [])) := by
  have hindexes : batchIndexes? divisions lo hi [] = subtreeIndexes? lo hi := by
    funext need
    rw [batchIndexes?.eq_def, if_pos rfl]
  have hproof : batchProof divisions lo hi [] = do
      let hash ← rangeHash lo hi
      return [hash] := by
    rw [batchProof.eq_def, if_pos rfl]
  rw [hindexes, hproof, Tree.batchPlan, if_pos (offsets_eq_nil_iff.mpr rfl)]
  exact h.realizes.map _

theorem realizes_batch_leaf {positions : List UInt64} (h : SubtreeOf size divisions lo hi)
    (hone : hi.toNat - lo.toNat ≤ 1) :
    Realizes size (batchIndexes? divisions lo hi positions) (batchProof divisions lo hi positions)
      (Tree.batchPlan lo.toNat (hi.toNat - lo.toNat) (offsets lo positions)) := by
  by_cases hsome : positions = []
  · subst hsome
    exact realizes_batch_nil h
  obtain ⟨next, hnext, hleaf⟩ := exists_next? h.lo_lt
  have hindexes : batchIndexes? divisions lo hi positions = some := by
    funext need
    rw [batchIndexes?.eq_def, if_neg hsome, hnext, Option.bind_eq_bind, Option.bind_some,
      if_pos (hleaf.mpr hone)]
    rfl
  have hproof : batchProof divisions lo hi positions = pure [] := by
    rw [batchProof.eq_def, if_neg hsome, some_bind_making hnext, if_pos (hleaf.mpr hone)]
  rw [hindexes, hproof, Tree.batchPlan, if_neg (mt offsets_eq_nil_iff.mp hsome), dif_pos hone]
  exact .pure size []

theorem realizes_batch {positions : List UInt64} (h : SubtreeOf size divisions lo hi)
    (hwithin : Within lo hi positions) :
    Realizes size (batchIndexes? divisions lo hi positions) (batchProof divisions lo hi positions)
      (Tree.batchPlan lo.toNat (hi.toNat - lo.toNat) (offsets lo positions)) := by
  induction divisions generalizing lo hi positions with
  | zero => exact realizes_batch_leaf h h.leaves_le
  | succ divisions ih =>
    by_cases hone : hi.toNat - lo.toNat ≤ 1
    · exact realizes_batch_leaf h hone
    by_cases hsome : positions = []
    · subst hsome
      exact realizes_batch_nil h
    obtain ⟨next, hnext, hleaf⟩ := exists_next? h.lo_lt
    obtain ⟨middle, hmiddle, hdivides⟩ := exists_middle? (h.two_le hone) h.leaves_le
    have hmore := mt hleaf.mp hone
    have hcount := countBefore_le middle positions
    have hindexes : batchIndexes? (divisions + 1) lo hi positions = fun need =>
        batchIndexes? divisions lo middle (positions.take (countBefore middle positions)) need >>=
          batchIndexes? divisions middle hi
            (positions.drop (countBefore middle positions)) := by
      funext need
      rw [batchIndexes?, if_neg hsome, hnext]
      simp only [Option.bind_eq_bind, Option.bind_some, if_neg hmore, hmiddle, take?_eq hcount,
        drop?_eq hcount]
    have hproof : batchProof (divisions + 1) lo hi positions = do
        let left ← batchProof divisions lo middle (positions.take (countBefore middle positions))
        let right ← batchProof divisions middle hi (positions.drop (countBefore middle positions))
        return left ++ right := by
      rw [batchProof, if_neg hsome, some_bind_making hnext, if_neg hmore]
      simp only [some_bind_making hmiddle, some_bind_making (take?_eq hcount),
        some_bind_making (drop?_eq hcount)]
    rw [hindexes, hproof, Tree.batchPlan, if_neg (mt offsets_eq_nil_iff.mp hsome), dif_neg hone,
      ← hdivides.right_eq, hdivides.add_left, ← hdivides.left_eq, hwithin.leftPositions_eq,
      hwithin.rightPositions_eq (Nat.le_of_lt hdivides.lo_lt)]
    exact (ih (h.left hdivides) hwithin.left).both (ih (h.right hdivides) hwithin.right) _

/-- Making a batch proof in words never halts. -/
theorem proveBatch_eq {size : UInt64} (hsize : size.toNat ≤ maxLeaves) (positions : List UInt64)
    (reader : Tree.HashReader) :
    proveBatch size positions reader =
      ofResult (Tree.proveBatch size.toNat (positions.map (·.toNat)) reader) := by
  apply result_bind_eq_ofResult
  intro _ hchecked
  obtain ⟨hpos, hwithin⟩ := within_of_checkPositions hchecked
  exact (realizes_batch (subtreeOf_self hpos hsize) hwithin).make_eq reader

/-! ## All that is read is used -/

/-- Up to `2 ^ 62` leaves, whatever is made of a tree uses all that was read for it.  For the root
of the tree, for the audit path of each leaf, for the consistency proof from each earlier size and
for the batch proof of any positions, the places to read are found, each subtree among them beginning
at a multiple of its size.  Any hashes that are read, as many as the places, are all used, none is
missed, and hashes that are stored for the leaves give the root of each range that comes up.  So
making these things in words comes to the results that numbers have, with every reader. -/
theorem makers_use_what_they_read {size : UInt64} (h : size.toNat ≤ 2 ^ 62) :
    (1 ≤ size → ∃ wanted, subtreeIndexes? 0 size [] = some wanted ∧
      UsesAll size.toNat wanted (rangeHash 0 size)) ∧
    (∀ n < size, ∃ wanted, auditIndexes? maxDivisions 0 size n [] = some wanted ∧
      UsesAll size.toNat wanted (auditPath maxDivisions 0 size n)) ∧
    (∀ old, 1 ≤ old → old ≤ size →
      ∃ wanted, consistencyIndexes? maxDivisions 0 size old [] = some wanted ∧
        UsesAll size.toNat wanted (consistencyProof maxDivisions 0 size old)) ∧
    (∀ positions, Tree.checkPositions size.toNat (positions.map (·.toNat)) = .ok () →
      ∃ wanted, batchIndexes? maxDivisions 0 size positions [] = some wanted ∧
        UsesAll size.toNat wanted (batchProof maxDivisions 0 size positions)) ∧
    ∀ reader,
      treeHash size reader = ofResult (Tree.treeHash size.toNat reader) ∧
      (∀ n, proveRecord size n reader =
        ofResult (Tree.proveRecord size.toNat n.toNat reader)) ∧
      (∀ old, proveTree size old reader =
        ofResult (Tree.proveTree size.toNat old.toNat reader)) ∧
      ∀ positions, proveBatch size positions reader =
        ofResult (Tree.proveBatch size.toNat (positions.map (·.toNat)) reader) := by
  refine ⟨?_, ?_, ?_, ?_, ?_⟩
  · intro hpos
    have hself := subtreeOf_self (UInt64.le_iff_toNat_le.mp hpos) h
    exact hself.realizes.exists_usesAll
  · intro n hn
    have hn := UInt64.lt_iff_toNat_lt.mp hn
    have hself := subtreeOf_self (Nat.one_le_of_lt hn) h
    exact (realizes_audit hself (Nat.zero_le _) hn).exists_usesAll
  · intro old hpos hle
    have hpos := UInt64.le_iff_toNat_le.mp hpos
    have hle := UInt64.le_iff_toNat_le.mp hle
    have hself := subtreeOf_self (Nat.le_trans hpos hle) h
    exact (realizes_consistency hself hpos hle).exists_usesAll
  · intro positions hchecked
    obtain ⟨hpos, hwithin⟩ := within_of_checkPositions hchecked
    exact (realizes_batch (subtreeOf_self hpos h) hwithin).exists_usesAll
  · intro reader
    exact ⟨treeHash_eq h reader, fun n => proveRecord_eq h n reader,
      fun old => proveTree_eq h old reader, fun positions => proveBatch_eq h positions reader⟩

/-- In a tree of six leaves, a batch proof for the second and the fifth leaf is made of the hashes at
three places. -/
theorem makers_use_three_of_six :
    (6 : UInt64).toNat ≤ 2 ^ 62 ∧ Tree.checkPositions 6 [1, 4] = .ok () ∧
      batchIndexes? maxDivisions 0 6 [1, 4] [] = some [0, 5, 8] ∧
      UsesAll 6 [0, 5, 8] (batchProof maxDivisions 0 6 [1, 4]) := by
  have hsize : (6 : UInt64).toNat ≤ 2 ^ 62 := by decide
  have hchecked : Tree.checkPositions 6 [1, 4] = .ok () := by rfl
  have hlisted : batchIndexes? maxDivisions 0 6 [1, 4] [] = some [0, 5, 8] := by decide
  obtain ⟨-, -, -, hbatch, -⟩ := makers_use_what_they_read hsize
  obtain ⟨wanted, hwanted, huses⟩ := hbatch [1, 4] hchecked
  obtain rfl := Option.some.inj (hlisted.symm.trans hwanted)
  exact ⟨hsize, hchecked, hlisted, huses⟩

end KeyTransparency.Words
