import KeyTransparency.Proofs.Tree.Record
import KeyTransparency.Proofs.Words.Frontier
import Mathlib.Data.List.Sort

/-!
# The frontier lies beside the way down

The way from the root of a tree down to a leaf passes a subtree at every division, to the left of
the leaf or to its right.  The frontier is made of the beginnings of those to the right.  On both
sides the positions increase, so it is enough to compare their members: a subtree to the right of
the way begins at the next subtree of its size, and no other such beginning lies within the tree.
-/

namespace KeyTransparency.Tree

/-- The beginnings of the subtrees to the right of the way down to leaf `n`, counted from `start`,
in a tree of `size` leaves that begin there. -/
def rightStarts (start size n : Nat) : List Nat :=
  ((siblingRanges start size n).filter (start + n < ·.start)).map (·.start)

theorem rightStarts_left (start : Nat) {size n : Nat} (htwo : 2 ≤ size) (hside : n < leftSize size) :
    rightStarts start size n =
      rightStarts start (leftSize size) n ++ [start + leftSize size] := by
  have hright : start + n < start + leftSize size := Nat.add_lt_add_left hside start
  rw [rightStarts, siblingRanges_left start htwo hside, List.filter_append,
    List.filter_cons_of_pos (by simpa using hright), List.map_append]
  rfl

theorem rightStarts_right (start : Nat) {size n : Nat} (htwo : 2 ≤ size)
    (hside : leftSize size ≤ n) :
    rightStarts start size n =
      rightStarts (start + leftSize size) (size - leftSize size) (n - leftSize size) := by
  have hleaf : start + leftSize size + (n - leftSize size) = start + n := by omega
  rw [rightStarts, rightStarts, siblingRanges_right start htwo hside, List.filter_append,
    List.filter_cons_of_neg (by simp), List.filter_nil, List.append_nil, hleaf]

namespace WayDown

variable {size n start position : Nat}

theorem mem_rightStarts_lt (h : WayDown size n) (hposition : position ∈ rightStarts start size n) :
    position < start + size := by
  obtain ⟨range, hrange, rfl⟩ := List.mem_map.mp hposition
  obtain ⟨-, hsome, hend⟩ := h.bounds_of_mem (List.mem_filter.mp hrange).1
  omega

theorem pairwise_rightStarts (h : WayDown size n) (start : Nat) :
    (rightStarts start size n).Pairwise (· < ·) := by
  induction h generalizing start with
  | leaf =>
    rw [rightStarts, siblingRanges_leaf]
    exact .nil
  | @left size n htwo hside hway ih =>
    rw [rightStarts_left start htwo hside]
    refine List.pairwise_append.mpr ⟨ih start, List.pairwise_singleton _ _, ?_⟩
    intro position hposition last hlast
    obtain rfl := List.mem_singleton.mp hlast
    exact hway.mem_rightStarts_lt hposition
  | right htwo hside _ ih =>
    rw [rightStarts_right start htwo hside]
    exact ih _

end WayDown

/-! ## The next subtrees and the halves to the right -/

/-- The subtree that follows the left half of a complete tree is the next one of its size. -/
theorem nextSubtreeStart_of_lt {start level n : Nat} (hdvd : 2 ^ (level + 1) ∣ start)
    (hside : n < 2 ^ level) :
    (start + n).testBit level = false ∧
      nextSubtreeStart (start + n) level = start + 2 ^ level := by
  obtain ⟨count, rfl⟩ := hdvd
  have hquotient : (2 ^ (level + 1) * count + n) / 2 ^ level = 2 * count := by
    rw [Nat.pow_succ, Nat.mul_assoc, Nat.mul_add_div (Nat.two_pow_pos level),
      Nat.div_eq_of_lt hside, Nat.add_zero]
  constructor
  · simp [Nat.testBit, Nat.shiftRight_eq_div_pow, hquotient]
  · rw [nextSubtreeStart_eq, hquotient, Nat.add_mul, Nat.one_mul, Nat.pow_succ,
      Nat.mul_right_comm 2, Nat.mul_comm 2]

/-- A range that begins a complete tree begins one that is twice as large as its left half. -/
theorem Aligned.two_pow_dvd {start size : Nat} (h : Aligned start size) (htwo : 2 ≤ size) :
    2 ^ ((size - 1).log2 + 1) ∣ start := by
  obtain ⟨top, hsize, hdvd⟩ := h
  have hsmaller : 2 ^ (size - 1).log2 < 2 ^ top := Nat.lt_of_lt_of_le (leftSize_lt htwo) hsize
  have hlevels : (size - 1).log2 < top := (Nat.pow_lt_pow_iff_right Nat.one_lt_two).mp hsmaller
  exact Nat.dvd_trans (Nat.pow_dvd_pow 2 hlevels) hdvd

/-- Within a tree, no next subtree begins after the right half does. -/
theorem nextSubtreeStart_le_division {start size n level : Nat} (haligned : Aligned start size)
    (htwo : 2 ≤ size) (hside : n < leftSize size)
    (hinside : nextSubtreeStart (start + n) level < start + size) :
    nextSubtreeStart (start + n) level ≤ start + leftSize size := by
  have hdvd := haligned.two_pow_dvd htwo
  obtain ⟨hbit, hnext⟩ := nextSubtreeStart_of_lt hdvd hside
  by_contra hafter
  have hafter := Nat.lt_of_not_le hafter
  -- its level is above that of the division, so it begins a multiple of the double size
  have hlevel : (size - 1).log2 < level := by
    by_contra hlower
    have hle := Nat.pow_dvd_pow 2 (Nat.le_of_not_lt hlower)
    have hbefore : nextSubtreeStart (start + n) level ≤ start + leftSize size :=
      hnext ▸ nextSubtreeStart_le (Nat.dvd_trans hle (two_pow_dvd_nextSubtreeStart _ _))
        (lt_nextSubtreeStart _ _)
    omega
  have hmultiple : 2 ^ ((size - 1).log2 + 1) ∣ nextSubtreeStart (start + n) level :=
    Nat.dvd_trans (Nat.pow_dvd_pow 2 hlevel) (two_pow_dvd_nextSubtreeStart _ _)
  have hdifference := Nat.le_of_dvd (by omega) (Nat.dvd_sub hmultiple hdvd)
  have hdouble := le_two_mul_leftSize htwo
  rw [Nat.pow_succ, Nat.mul_comm] at hdifference
  change 2 * leftSize size ≤ _ at hdifference
  omega

/-- A position begins a subtree to the right of the way exactly if it begins a next subtree at a
level where the leaf's bit is zero. -/
theorem WayDown.mem_rightStarts_iff {size n start position : Nat} (h : WayDown size n)
    (haligned : Aligned start size) :
    position ∈ rightStarts start size n ↔
      position < start + size ∧ ∃ level, (start + n).testBit level = false ∧
        nextSubtreeStart (start + n) level = position := by
  induction h generalizing start with
  | leaf =>
    rw [rightStarts, siblingRanges_leaf]
    constructor
    · intro hposition
      cases hposition
    · rintro ⟨hinside, level, -, rfl⟩
      have hafter := lt_nextSubtreeStart (start + 0) level
      omega
  | @left size n htwo hside _ ih =>
    have hsmaller := leftSize_lt htwo
    obtain ⟨hbit, hnext⟩ := nextSubtreeStart_of_lt (haligned.two_pow_dvd htwo) hside
    rw [rightStarts_left start htwo hside, List.mem_append, List.mem_singleton,
      ih (haligned.left htwo)]
    constructor
    · rintro (⟨hinside, hlevel⟩ | rfl)
      · exact ⟨by omega, hlevel⟩
      · exact ⟨by omega, _, hbit, hnext⟩
    · rintro ⟨hinside, level, hclear, rfl⟩
      rcases Nat.lt_or_eq_of_le (nextSubtreeStart_le_division haligned htwo hside hinside) with
        hleft | hright
      · exact .inl ⟨hleft, level, hclear, rfl⟩
      · exact .inr hright
  | @right size n htwo hside _ ih =>
    have hsmaller := leftSize_lt htwo
    have hend : start + leftSize size + (size - leftSize size) = start + size := by omega
    have hleaf : start + leftSize size + (n - leftSize size) = start + n := by omega
    rw [rightStarts_right start htwo hside, ih (haligned.right htwo), hend, hleaf]

/-- The frontier of a leaf is made of the beginnings of the subtrees to the right of the way down to
it, from the leaf upwards. -/
theorem frontier_eq_rightStarts {n size : Nat} (hn : n < size) (hsize : size ≤ 2 ^ positionBits) :
    frontier n size = rightStarts 0 size n := by
  have hway := wayDown hn
  apply List.Pairwise.eq_of_mem_iff ((pairwise_subtreeStarts n).sublist (List.takeWhile_sublist _))
    (hway.pairwise_rightStarts 0)
  intro position
  rw [← frontier_eq, mem_frontier_iff, hway.mem_rightStarts_iff (.zero size), Nat.zero_add,
    Nat.zero_add, and_comm]
  apply and_congr_right
  intro hinside
  constructor
  · intro hposition
    obtain ⟨level, hlevel, hstart⟩ := List.mem_map.mp hposition
    exact ⟨level, by simpa using (List.mem_filter.mp hlevel).2, hstart⟩
  · rintro ⟨level, hbit, hstart⟩
    -- a subtree that begins at a position has no more leaves than there are before it
    have hle : 2 ^ level ≤ position :=
      Nat.le_of_dvd (hstart ▸ Nat.zero_lt_of_lt (lt_nextSubtreeStart n level))
        (hstart ▸ two_pow_dvd_nextSubtreeStart n level)
    have hlevel : level < positionBits :=
      (Nat.pow_lt_pow_iff_right Nat.one_lt_two).mp (by omega)
    refine List.mem_map.mpr ⟨level, List.mem_filter.mpr ⟨List.mem_range.mpr hlevel, ?_⟩, hstart⟩
    rw [hbit]
    rfl

/-! ## The frontier as a list -/

/-- A tree that has grown has the same frontier and perhaps more of it. -/
theorem frontier_prefix {size larger : Nat} (n : Nat) (hle : size ≤ larger) :
    frontier n size <+: frontier n larger := by
  have htrim : frontier n size = (frontier n larger).takeWhile (· < size) := by
    rw [frontier_eq, frontier_eq, List.takeWhile_takeWhile]
    congr 1
    funext start
    have hboth : start < size ↔ start < size ∧ start < larger := by omega
    simpa using hboth
  exact htrim ▸ List.takeWhile_prefix _

/-- The next leaf, if the tree has it, is the first of the frontier. -/
theorem head?_frontier {n size : Nat} (hnext : n + 1 < size) (hsize : size ≤ 2 ^ positionBits) :
    (frontier n size).head? = some (n + 1) := by
  have hmem := succ_mem_frontier hnext hsize
  cases hfrontier : frontier n size with
  | nil =>
    rw [hfrontier] at hmem
    cases hmem
  | cons first later =>
    obtain ⟨hfirst, hsorted⟩ := List.pairwise_cons.mp (pairwise_monitoredPositions n size)
    rw [hfrontier] at hmem hfirst hsorted
    have hafter : n < first := hfirst first List.mem_cons_self
    rcases List.mem_cons.mp hmem with hsame | hlater
    · rw [hsame]
      rfl
    · have hbefore := (List.pairwise_cons.mp hsorted).1 (n + 1) hlater
      omega

/-- The frontier of a leaf is found in words without losing a bit.  It is made of the beginnings of
those ranges beside the way down to the leaf that lie to its right, from the leaf upwards.  So it
increases, lies between the leaf and the end of the tree, begins with the next leaf if there is one,
and stays as it is when the tree grows, but for what is added at its end. -/
theorem frontier?_eq_right_siblings {n size : UInt64} (hn : n < size) :
    ∃ positions ranges, Words.frontier? n size = some positions ∧
      copathRanges n.toNat size.toNat = .ok ranges ∧
      positions.map (·.toNat) = (ranges.filter (n.toNat < ·.start)).map (·.start) ∧
      positions.Pairwise (· < ·) ∧
      (∀ position ∈ positions, n < position ∧ position < size) ∧
      (n.toNat + 1 < size.toNat → positions.head? = some (n + 1)) ∧
      ∀ larger, size ≤ larger →
        ∃ longer, Words.frontier? n larger = some longer ∧ positions <+: longer := by
  have hnNat := UInt64.lt_iff_toNat_lt.mp hn
  have hword : size.toNat ≤ 2 ^ positionBits := Nat.le_of_lt size.toNat_lt
  obtain ⟨positions, hpositions, hfrontier⟩ :=
    Option.map_eq_some_iff.mp (Words.frontier?_eq n size)
  have hmonitored := pairwise_monitoredPositions n.toNat size.toNat
  rw [monitoredPositions, ← hfrontier, List.pairwise_cons, List.pairwise_map] at hmonitored
  obtain ⟨hafter, hincreasing⟩ := hmonitored
  refine ⟨positions, siblingRanges 0 size.toNat n.toNat, hpositions, ?_, ?_, ?_, ?_, ?_, ?_⟩
  · rw [copathRanges, if_neg (Nat.not_le.mpr hnNat)]
  · rw [hfrontier, frontier_eq_rightStarts hnNat hword, rightStarts, Nat.zero_add]
  · exact hincreasing.imp UInt64.lt_iff_toNat_lt.mpr
  · intro position hposition
    have hmem := List.mem_map_of_mem (f := (·.toNat)) hposition
    refine ⟨UInt64.lt_iff_toNat_lt.mpr (hafter _ hmem), UInt64.lt_iff_toNat_lt.mpr ?_⟩
    rw [hfrontier] at hmem
    exact (mem_frontier_iff.mp hmem).2
  · intro hnext
    have hhead := head?_frontier hnext hword
    rw [← hfrontier, List.head?_map, Option.map_eq_some_iff] at hhead
    obtain ⟨first, hfirst, hsucc⟩ := hhead
    have hbound : n.toNat + 1 < 2 ^ 64 := Nat.lt_of_lt_of_le hnext hword
    have hsuccNat : (n + 1).toNat = n.toNat + 1 := by
      rw [UInt64.toNat_add]
      exact Nat.mod_eq_of_lt hbound
    rw [hfirst, UInt64.toNat_inj.mp (hsucc.trans hsuccNat.symm)]
  · intro larger hlarger
    obtain ⟨longer, hlonger, hgrown⟩ :=
      Option.map_eq_some_iff.mp (Words.frontier?_eq n larger)
    refine ⟨longer, hlonger, ?_⟩
    have hbegins := frontier_prefix n.toNat (UInt64.le_iff_toNat_le.mp hlarger)
    rw [← hfrontier, ← hgrown] at hbegins
    exact (List.prefix_map_iff_of_injective fun _ _ => UInt64.toNat_inj.mp).mp hbegins

/-- Near the upper end of a word, for a leaf whose three lowest bits and whose highest bit are zero. -/
theorem frontier?_eq_right_siblings_high :
    (0x7ffffffffffffff8 : UInt64) < 0xffffffffffffffff ∧
      ∃ positions ranges,
        Words.frontier? 0x7ffffffffffffff8 0xffffffffffffffff = some positions ∧
        copathRanges (0x7ffffffffffffff8 : UInt64).toNat (0xffffffffffffffff : UInt64).toNat =
          .ok ranges ∧
        positions.map (·.toNat) =
          (ranges.filter ((0x7ffffffffffffff8 : UInt64).toNat < ·.start)).map (·.start) ∧
        positions.Pairwise (· < ·) ∧
        (∀ position ∈ positions, 0x7ffffffffffffff8 < position ∧ position < 0xffffffffffffffff) ∧
        ((0x7ffffffffffffff8 : UInt64).toNat + 1 < (0xffffffffffffffff : UInt64).toNat →
          positions.head? = some (0x7ffffffffffffff8 + 1)) ∧
        ∀ larger, 0xffffffffffffffff ≤ larger →
          ∃ longer, Words.frontier? 0x7ffffffffffffff8 larger = some longer ∧
            positions <+: longer := by
  have hn : (0x7ffffffffffffff8 : UInt64) < 0xffffffffffffffff := by decide
  exact ⟨hn, frontier?_eq_right_siblings hn⟩

-- The subtrees to the right begin one, two, four and eight leaves later.
example : Words.frontier? 0x7ffffffffffffff8 0xffffffffffffffff =
    some [0x7ffffffffffffff9, 0x7ffffffffffffffa, 0x7ffffffffffffffc, 0x8000000000000000] := by
  decide +kernel

end KeyTransparency.Tree
