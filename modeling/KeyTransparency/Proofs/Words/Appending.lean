import KeyTransparency.Proofs.Tree.Places
import KeyTransparency.Proofs.Tree.Storage
import KeyTransparency.Proofs.Words.Layout
import KeyTransparency.Words.Storage

/-!
# Appending in words

A leaf that is appended completes as many subtrees as its number has one bits at the low end, and
these are the zero bits at the low end of the next number.  So the hashes to read for it are found
in words, and the hashes to store are those that numbers have.
-/

namespace KeyTransparency

namespace Words

/-! ## The subtrees that a leaf completes -/

/-- The next number has as many zero bits at the low end as this one has one bits. -/
theorem ctz_eq_trailingOnes {n next : UInt64} (h : next.toNat = n.toNat + 1) :
    next.toBitVec.ctz.toNat = Tree.trailingOnes n.toNat := by
  have hne : next.toBitVec ≠ 0#64 := by
    intro hzero
    have hzeroNat : next.toNat = 0 := congrArg BitVec.toNat hzero
    omega
  apply Nat.le_antisymm
  · apply Tree.two_pow_dvd_succ_iff.mp
    rw [← h]
    apply Nat.dvd_of_mod_eq_zero
    apply Nat.eq_of_testBit_eq
    intro i
    rw [Nat.testBit_mod_two_pow, Nat.zero_testBit]
    by_cases hi : i < next.toBitVec.ctz.toNat
    · have hbit : next.toNat.testBit i = false := BitVec.getLsbD_false_of_lt_ctz hi
      rw [hbit, Bool.and_false]
    · rw [decide_eq_false hi, Bool.false_and]
  · by_contra hless
    have hbit : next.toNat.testBit next.toBitVec.ctz.toNat = true :=
      BitVec.getLsbD_true_ctz_of_ne_zero hne
    obtain ⟨q, hq⟩ := Tree.two_pow_dvd_succ_iff.mpr (Nat.le_refl (Tree.trailingOnes n.toNat))
    rw [h, hq, Nat.testBit_two_pow_mul, decide_eq_false (by omega), Bool.false_and] at hbit
    cases hbit

/-- The left half of a subtree that a leaf completes lies before the leaf. -/
theorem leftHalf_le {level n : Nat} (h : level < Tree.trailingOnes n) :
    1 ≤ n >>> level ∧ (n >>> level - 1 + 1) * 2 ^ level ≤ n := by
  have hpos : 0 < 2 ^ level := Nat.two_pow_pos level
  have hdouble : 2 ^ (level + 1) ≤ n + 1 :=
    Nat.le_of_dvd (Nat.succ_pos n) (Tree.two_pow_dvd_succ_iff.mpr h)
  rw [Nat.pow_succ] at hdouble
  have hone : 1 ≤ n >>> level := by
    rw [Nat.shiftRight_eq_div_pow, Nat.one_le_div_iff hpos]
    omega
  refine ⟨hone, ?_⟩
  rw [Nat.sub_add_cancel hone, Nat.shiftRight_eq_div_pow]
  exact Nat.div_mul_le_self n _

theorem level_lt_of_le_trailingOnes {level : Nat} {n : UInt64} (h : n.toNat < maxLeaves)
    (hlevel : level ≤ Tree.trailingOnes n.toNat) : level < 64 := by
  have hdvd := Tree.two_pow_dvd_succ_iff.mpr hlevel
  have hpow : 2 ^ level < 2 ^ 64 :=
    Nat.lt_of_le_of_lt (Nat.le_trans (Nat.le_of_dvd (Nat.succ_pos _) hdvd) h) (by decide)
  exact (Nat.pow_lt_pow_iff_right (by decide)).mp hpow

/-! ## What is read and what is stored -/

variable {n : UInt64}

theorem exists_leftIndex? (h : n.toNat < maxLeaves) {level : Nat}
    (hlevel : level < Tree.trailingOnes n.toNat) :
    ∃ place, leftIndex? n level = some place ∧
      place.toNat = Tree.storedIndex level (n.toNat >>> level - 1) := by
  have hbits := level_lt_of_le_trailingOnes h (Nat.le_of_lt hlevel)
  obtain ⟨hone, hle⟩ := leftHalf_le hlevel
  obtain ⟨subtree, hsubtree, hsubtreeNat⟩ := exists_shiftRight? n hbits
  obtain ⟨left, hleft, hleftNat⟩ := @exists_sub? subtree 1 (hsubtreeNat ▸ hone)
  have hleftNat : left.toNat = n.toNat >>> level - 1 := hleftNat.trans (hsubtreeNat ▸ rfl)
  rw [← hleftNat, ← toNat_toUInt8 hbits] at hle
  obtain ⟨place, hplace, hplaceNat⟩ := exists_storedIndex? (Nat.le_trans hle (Nat.le_of_lt h))
  refine ⟨place, ?_, ?_⟩
  · rw [leftIndex?, hsubtree]
    simp only [Option.bind_eq_bind, Option.bind_some, hleft]
    exact hplace
  · rw [hplaceNat, hleftNat, toNat_toUInt8 hbits]

theorem exists_leftIndexes? (h : n.toNat < maxLeaves) :
    ∃ wanted, leftIndexes? n = some wanted ∧
      wanted.map (·.toNat) = ((List.range (Tree.trailingOnes n.toNat)).map fun level =>
        Tree.storedIndex level (n.toNat >>> level - 1)).reverse := by
  have hnextWord : n.toNat + (1 : UInt64).toNat < UInt64.size :=
    Nat.lt_of_le_of_lt h (by decide)
  obtain ⟨next, hnext, hnextNat⟩ := exists_add? hnextWord
  have hplaces : List.Forall₂
      (fun level number => ∃ place, leftIndex? n level = some place ∧ place.toNat = number)
      (List.range (Tree.trailingOnes n.toNat))
      ((List.range (Tree.trailingOnes n.toNat)).map fun level =>
        Tree.storedIndex level (n.toNat >>> level - 1)) := by
    apply List.forall₂_map_right_iff.mpr
    apply List.forall₂_same.mpr
    intro level hlevel
    exact exists_leftIndex? h (List.mem_range.mp hlevel)
  obtain ⟨indexes, hindexes, hindexesNat⟩ := exists_mapM_toNat hplaces
  refine ⟨indexes.reverse, ?_, ?_⟩
  · rw [leftIndexes?, hnext]
    simp only [Option.bind_eq_bind, Option.bind_some, ctz_eq_trailingOnes hnextNat, hindexes]
    rfl
  · rw [List.map_reverse, hindexesNat]

/-- The hashes read are combined from the last one on. -/
theorem completed?_eq {old : List Hash} {count : Nat} (h : count ≤ old.length) (last : Hash) :
    completed? old count last = some (Tree.completed last (old.take count).reverse) := by
  induction count generalizing last with
  | zero => rfl
  | succ count ih =>
    have hmember : member? count old = some old[count] := List.getElem?_eq_getElem h
    rw [completed?, hmember]
    simp only [Option.bind_eq_bind, Option.bind_some, ih (Nat.le_of_lt h)]
    rw [List.take_succ_eq_append_getElem h, List.reverse_append, List.reverse_singleton]
    rfl

/-- The hashes to store for a leaf are found in words. -/
theorem appendHashes_eq (h : n.toNat < maxLeaves) (leaf : Hash) (reader : Tree.HashReader) :
    appendHashes n leaf reader = ofResult (Tree.appendHashes n.toNat leaf reader) := by
  obtain ⟨wanted, hwanted, hwantedNat⟩ := exists_leftIndexes? h
  rw [appendHashes, some_bind hwanted, Tree.appendHashes]
  simp only [← hwantedNat]
  apply result_bind_eq_ofResult
  intro old hold
  have hlength : wanted.length = old.length := by
    rw [Tree.length_of_readExactly hold, List.length_map]
  rw [completed?_eq (Nat.le_of_eq hlength), hlength, List.take_length]
  rfl

end Words

namespace Tree

/-! ## The hashes that a leaf adds -/

theorem length_completed (last : Hash) (lefts : List Hash) :
    (completed last lefts).length = lefts.length + 1 := by
  induction lefts generalizing last with
  | nil => rfl
  | cons left rest ih => rw [completed, List.length_cons, ih, List.length_cons]

theorem length_of_appendHashes {n : Nat} {leaf : Hash} {reader : HashReader} {hashes : List Hash}
    (h : appendHashes n leaf reader = .ok hashes) : hashes.length = trailingOnes n + 1 := by
  obtain ⟨old, hold, hmade⟩ := bind_eq_ok_iff.mp h
  cases hmade
  rw [length_completed, List.length_reverse, length_of_readExactly hold, List.length_reverse,
    List.length_map, List.length_range]

/-- The subtree of a level that a leaf completes ends with the leaf. -/
theorem lastRoot_eq {leaves : List Hash} {n level : Nat} (hlength : leaves.length = n + 1)
    (h : level ≤ trailingOnes n) :
    lastRoot leaves level = root (part leaves (n >>> level * 2 ^ level) (2 ^ level)) := by
  have hend := lastLeaf_add_one level (n >>> level)
  rw [lastLeaf_shiftRight h, Nat.succ_mul] at hend
  rw [lastRoot, hlength, hend, Nat.add_sub_cancel]

end Tree

namespace Words

/-! ## The places of all subtrees -/

/-- A number that is not greater than a word is one. -/
theorem exists_toNat {number : Nat} {bound : UInt64} (h : number ≤ bound.toNat) :
    ∃ word : UInt64, word.toNat = number :=
  ⟨.ofNat number, UInt64.toNat_ofNat_of_lt' (Nat.lt_of_le_of_lt h bound.toNat_lt)⟩

theorem bijOn_storedIndex? {size count : UInt64} (h : size.toNat ≤ maxLeaves)
    (hcount : count.toNat = Tree.storedCount size.toNat) :
    Set.BijOn (fun s : UInt8 × UInt64 => storedIndex? s.1 s.2)
      {s | (s.2.toNat + 1) * 2 ^ s.1.toNat ≤ size.toNat} (some '' {place | place < count}) := by
  refine ⟨?_, ?_, ?_⟩
  · rintro ⟨level, n⟩ hs
    obtain ⟨place, hplace, hplaceNat⟩ := exists_storedIndex? (Nat.le_trans hs h)
    refine ⟨place, ?_, hplace.symm⟩
    apply UInt64.lt_iff_toNat_lt.mpr
    rw [hplaceNat, hcount]
    exact Tree.storedIndex_lt hs
  · rintro ⟨level, n⟩ hs ⟨level', n'⟩ hs' hsame
    obtain ⟨place, hplace, hplaceNat⟩ := exists_storedIndex? (Nat.le_trans hs h)
    obtain ⟨place', hplace', hplaceNat'⟩ := exists_storedIndex? (Nat.le_trans hs' h)
    obtain rfl : place = place' := Option.some.inj (hplace.symm.trans (hsame.trans hplace'))
    obtain ⟨hlevel, hn⟩ := Tree.storedIndex_inj (hplaceNat.symm.trans hplaceNat')
    exact Prod.ext (UInt8.toNat_inj.mp hlevel) (UInt64.toNat_inj.mp hn)
  · rintro _ ⟨place, hplace, rfl⟩
    have hbelow : place.toNat < Tree.storedCount size.toNat :=
      hcount ▸ UInt64.lt_iff_toNat_lt.mp hplace
    obtain ⟨level, n, hs, hindex⟩ := Tree.exists_storedIndex hbelow
    have hpow : 2 ^ level < 2 ^ 64 :=
      Nat.lt_of_le_of_lt (Nat.le_trans (Nat.le_mul_of_pos_left _ (Nat.succ_pos n)) hs) size.toNat_lt
    have hlevel := toNat_toUInt8 ((Nat.pow_lt_pow_iff_right (by decide)).mp hpow)
    have hnumber : n ≤ size.toNat :=
      Nat.le_of_succ_le (Nat.le_trans (Nat.le_mul_of_pos_right _ (Nat.two_pow_pos level)) hs)
    obtain ⟨word, rfl⟩ := exists_toNat hnumber
    rw [← hlevel] at hs hindex
    obtain ⟨found, hfound, hfoundNat⟩ := exists_storedIndex? (Nat.le_trans hs h)
    refine ⟨(level.toUInt8, word), hs, hfound.trans ?_⟩
    rw [UInt64.toNat_inj.mp (hfoundNat.trans hindex)]

/-- The subtrees that a leaf completes are stored one after the other from the leaf's place on. -/
theorem exists_places_of_leaf {n : UInt64} (h : n.toNat < maxLeaves) :
    ∃ first, storedIndex? 0 n = some first ∧ first.toNat = Tree.storedIndex 0 n.toNat ∧
      ∀ level ≤ Tree.trailingOnes n.toNat, ∃ subtree place, shiftRight? n level = some subtree ∧
        storedIndex? level.toUInt8 subtree = some place ∧ place.toNat = first.toNat + level := by
  have hleaf : (n.toNat + 1) * 2 ^ (0 : UInt8).toNat ≤ maxLeaves := by
    rw [UInt8.toNat_zero, Nat.pow_zero, Nat.mul_one]
    exact h
  obtain ⟨first, hfirst, hfirstNat⟩ := exists_storedIndex? hleaf
  have hfirstNat : first.toNat = Tree.storedIndex 0 n.toNat := hfirstNat
  refine ⟨first, hfirst, hfirstNat, ?_⟩
  intro level hlevel
  have hbits := level_lt_of_le_trailingOnes h hlevel
  obtain ⟨subtree, hsubtree, hsubtreeNat⟩ := exists_shiftRight? n hbits
  have hends : (subtree.toNat + 1) * 2 ^ level.toUInt8.toNat ≤ maxLeaves := by
    rw [toNat_toUInt8 hbits, hsubtreeNat, ← Tree.lastLeaf_add_one, Tree.lastLeaf_shiftRight hlevel]
    exact h
  obtain ⟨place, hplace, hplaceNat⟩ := exists_storedIndex? hends
  refine ⟨subtree, place, hsubtree, hplace, ?_⟩
  rw [hplaceNat, toNat_toUInt8 hbits, hsubtreeNat, Tree.storedIndex_shiftRight hlevel, hfirstNat]

/-- Up to `2 ^ 62` leaves, every place is found in words.  The places of the complete subtrees of a
tree are those below the number of hashes stored for it, each the place of one subtree, and there
are as many as all sizes of subtrees go into the number of leaves together.  The hashes that are
stored for a leaf are as many as the leaf's number has one bits at the low end, and its own; they
come to the places from the leaf's place on, and the one at each offset is the root of the subtree
of this level that the leaf completes. -/
theorem places_of_subtrees {size : UInt64} (h : size.toNat ≤ 2 ^ 62) :
    ∃ count, storedCount? size = some count ∧
      Set.BijOn (fun s : UInt8 × UInt64 => storedIndex? s.1 s.2)
        {s | (s.2.toNat + 1) * 2 ^ s.1.toNat ≤ size.toNat} (some '' {place | place < count}) ∧
      (∀ levels, size.toNat < 2 ^ levels →
        count.toNat = ∑ level ∈ Finset.range levels, size.toNat >>> level) ∧
      ∀ n < size, ∃ first, storedIndex? 0 n = some first ∧
        (∀ level ≤ Tree.trailingOnes n.toNat, ∃ subtree place,
          shiftRight? n level = some subtree ∧ storedIndex? level.toUInt8 subtree = some place ∧
            place.toNat = first.toNat + level) ∧
        (∀ leaf reader hashes, appendHashes n leaf reader = ofResult (.ok hashes) →
          hashes.length = Tree.trailingOnes n.toNat + 1) ∧
        ∀ leaves leaf, leaves.length = n.toNat → ∃ stored hashes,
          Tree.storedHashes leaves = .ok stored ∧ stored.size = first.toNat ∧
          appendHashes n leaf (.ofStored stored) = ofResult (.ok hashes) ∧
          Tree.appendLeaf stored n.toNat leaf = .ok (stored ++ hashes.toArray) ∧
          ∀ level ≤ Tree.trailingOnes n.toNat, hashes[level]? =
            some (Tree.root (Tree.part (leaves ++ [leaf]) (n.toNat >>> level * 2 ^ level)
              (2 ^ level))) := by
  obtain ⟨count, hcount, hcountNat⟩ := exists_storedCount? h
  refine ⟨count, hcount, bijOn_storedIndex? h hcountNat, ?_, ?_⟩
  · intro levels hlevels
    rw [hcountNat, Tree.storedCount_eq_hashesBefore, Tree.hashesBefore_eq_sum hlevels]
  · intro n hn
    have hword : n.toNat < maxLeaves := Nat.lt_of_lt_of_le (UInt64.lt_iff_toNat_lt.mp hn) h
    obtain ⟨first, hfirst, hfirstNat, hplaces⟩ := exists_places_of_leaf hword
    refine ⟨first, hfirst, hplaces, ?_, ?_⟩
    · intro leaf reader hashes hmade
      rw [appendHashes_eq hword] at hmade
      exact Tree.length_of_appendHashes (Option.some.inj hmade)
    · intro leaves leaf hlength
      obtain ⟨stored, hstored, hstores⟩ := Tree.exists_stores_storedHashes leaves
      have hmade := hstores.appendHashes_eq_ok leaf
      have hsize := hstores.size_eq
      have hconcat : (leaves ++ [leaf]).length = n.toNat + 1 := by
        rw [List.length_append, List.length_singleton, hlength]
      rw [hlength] at hmade hsize
      refine ⟨stored, _, hstored, ?_, (appendHashes_eq hword leaf _).trans (congrArg _ hmade), ?_,
        ?_⟩
      · rw [hsize, hfirstNat, Tree.storedCount_eq_hashesBefore, Tree.storedIndex, Nat.pow_zero,
          Nat.mul_one, Nat.add_sub_cancel, Nat.add_zero]
      · rw [Tree.appendLeaf, hmade]
        rfl
      · intro level hlevel
        rw [List.getElem?_map, List.getElem?_range (Nat.lt_succ_of_le hlevel), Option.map_some,
          Tree.lastRoot_eq hconcat hlevel]

/-- In a tree of `2 ^ 62` leaves the places are the first `2 ^ 63 - 1`, and the fourth leaf is stored
at place 4, with the subtrees of two and of four leaves that it completes behind it. -/
theorem places_of_largest :
    (4611686018427387904 : UInt64).toNat ≤ 2 ^ 62 ∧
      storedCount? 4611686018427387904 = some 9223372036854775807 ∧
      Set.BijOn (fun s : UInt8 × UInt64 => storedIndex? s.1 s.2)
        {s | (s.2.toNat + 1) * 2 ^ s.1.toNat ≤ 4611686018427387904}
        (some '' {place | place < 9223372036854775807}) ∧
      storedIndex? 0 3 = some 4 ∧
      ∀ level ≤ Tree.trailingOnes 3, ∃ subtree place, shiftRight? 3 level = some subtree ∧
        storedIndex? level.toUInt8 subtree = some place ∧ place.toNat = 4 + level := by
  have hsize : (4611686018427387904 : UInt64).toNat ≤ 2 ^ 62 := by decide
  have hcount : storedCount? 4611686018427387904 = some 9223372036854775807 := by decide
  have hfirst : storedIndex? 0 3 = some 4 := by decide
  obtain ⟨count, hsome, hbij, -, hleaves⟩ := places_of_subtrees hsize
  obtain rfl := Option.some.inj (hcount.symm.trans hsome)
  obtain ⟨first, hplace, hplaces, -⟩ := hleaves 3 (by decide)
  obtain rfl := Option.some.inj (hfirst.symm.trans hplace)
  exact ⟨hsize, hcount, hbij, hfirst, hplaces⟩

end Words

end KeyTransparency
