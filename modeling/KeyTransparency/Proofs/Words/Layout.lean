import KeyTransparency.Proofs.Tree.Layout
import KeyTransparency.Proofs.Words.Run
import KeyTransparency.Words.Layout

/-!
# Finding places in words

The last leaf of a subtree lies in the tree, and a tree has at most twice as many stored hashes as
leaves.  So in a tree of up to `2 ^ 62` leaves every number that is met on the way to a place is a
word, and the place found is the one that numbers have.
-/

namespace KeyTransparency.Words

/-- The number of leaves up to which the places of all hashes are words. -/
def maxLeaves : Nat := 2 ^ (62 : Nat)

theorem exists_half? (n : UInt64) : ∃ half, shiftRight? n 1 = some half ∧ half.toNat = n.toNat / 2 :=
  exists_shiftRight? n (by decide)

theorem toNat_toUInt8 {level : Nat} (h : level < 64) : level.toUInt8.toNat = level :=
  Nat.mod_eq_of_lt (Nat.lt_trans h (by decide))

/-! ## The last leaf -/

/-- The right half of a subtree. -/
theorem exists_rightChild? {n : UInt64} (h : 2 * n.toNat + 1 < UInt64.size) :
    ∃ double child, mul? 2 n = some double ∧ add? double 1 = some child ∧
      child.toNat = 2 * n.toNat + 1 := by
  have hmul : (2 : UInt64).toNat * n.toNat < UInt64.size := Nat.lt_of_succ_lt h
  obtain ⟨double, hdouble, hdoubleNat⟩ := exists_mul? hmul
  have hadd : double.toNat + (1 : UInt64).toNat < UInt64.size := hdoubleNat ▸ h
  obtain ⟨child, hchild, hchildNat⟩ := exists_add? hadd
  exact ⟨double, child, hdouble, hchild, hchildNat.trans (hdoubleNat ▸ rfl)⟩

theorem exists_lastLeaf? {level : Nat} {n : UInt64}
    (h : (n.toNat + 1) * 2 ^ level ≤ maxLeaves) :
    ∃ last, lastLeaf? level n = some last ∧
      last.toNat = (n.toNat + 1) * 2 ^ level - 1 := by
  induction level generalizing n with
  | zero => exact ⟨n, rfl, by rw [Nat.pow_zero, Nat.mul_one, Nat.add_sub_cancel]⟩
  | succ level ih =>
    -- the right half ends with the same leaf
    have hends : (n.toNat + 1) * 2 ^ (level + 1) = (2 * n.toNat + 1 + 1) * 2 ^ level := by
      rw [Nat.pow_succ', ← Nat.mul_assoc]
      congr 1
      omega
    have hword : 2 * n.toNat + 1 < UInt64.size := by
      have hbound : 2 * n.toNat + 1 + 1 ≤ 2 ^ 62 :=
        Nat.le_trans (Nat.le_mul_of_pos_right _ (Nat.two_pow_pos level)) (hends ▸ h)
      exact Nat.lt_of_lt_of_le hbound (by decide)
    obtain ⟨double, child, hdouble, hchild, hchildNat⟩ := exists_rightChild? hword
    rw [hends, ← hchildNat] at h ⊢
    obtain ⟨last, hlast, hlastNat⟩ := ih h
    refine ⟨last, ?_, hlastNat⟩
    rw [lastLeaf?, hdouble]
    simp only [Option.bind_eq_bind, Option.bind_some, hchild]
    exact hlast

/-! ## Places -/

theorem exists_addHalves? {rounds : Nat} {total n : UInt64} (hrounds : n.toNat < 2 ^ rounds)
    (h : total.toNat + Tree.hashesBefore n.toNat < UInt64.size) :
    ∃ sum, addHalves? rounds total n = some sum ∧
      sum.toNat = total.toNat + Tree.hashesBefore n.toNat := by
  induction rounds generalizing total n with
  | zero =>
    obtain rfl : n = 0 := UInt64.toNat_inj.mp (Nat.lt_one_iff.mp hrounds)
    exact ⟨total, rfl, by rw [UInt64.toNat_zero, Tree.hashesBefore_zero, Nat.add_zero]⟩
  | succ rounds ih =>
    by_cases hzero : n = 0
    · subst hzero
      refine ⟨total, ?_, by rw [UInt64.toNat_zero, Tree.hashesBefore_zero, Nat.add_zero]⟩
      rw [addHalves?, if_pos rfl]
    · rw [Nat.pow_succ] at hrounds
      rw [Tree.hashesBefore_eq, ← Nat.add_assoc] at h ⊢
      obtain ⟨half, hhalf, hhalfNat⟩ := exists_half? n
      obtain ⟨more, hmore, hmoreNat⟩ := exists_add? (Nat.lt_of_le_of_lt (Nat.le_add_right _ _) h)
      rw [← hmoreNat, ← hhalfNat] at h ⊢
      obtain ⟨sum, hsum, hsumNat⟩ := ih (by omega) h
      refine ⟨sum, ?_, hsumNat⟩
      rw [addHalves?, if_neg hzero, hmore, hhalf]
      exact hsum

/-- The place of a subtree of a tree is found in words. -/
theorem exists_storedIndex? {level : UInt8} {n : UInt64}
    (h : (n.toNat + 1) * 2 ^ level.toNat ≤ maxLeaves) :
    ∃ place, storedIndex? level n = some place ∧
      place.toNat = Tree.storedIndex level.toNat n.toNat := by
  have hmax : maxLeaves = 2 ^ 62 := rfl
  have hsize : UInt64.size = 2 ^ 64 := rfl
  have hlevel : level.toUInt64.toNat = level.toNat := UInt8.toNat_toUInt64 level
  have hsmall : level.toNat < 2 ^ 8 := level.toNat_lt
  obtain ⟨last, hlast, hlastNat⟩ := exists_lastLeaf? h
  have hbefore := Tree.storedCount_le last.toNat
  rw [Tree.storedCount_eq_hashesBefore] at hbefore
  have hsumWord : (0 : UInt64).toNat + Tree.hashesBefore last.toNat < UInt64.size := by
    rw [UInt64.toNat_zero]
    omega
  obtain ⟨sum, hsum, hsumNat⟩ := exists_addHalves? last.toNat_lt hsumWord
  rw [UInt64.toNat_zero, Nat.zero_add] at hsumNat
  have hplaceWord : sum.toNat + level.toUInt64.toNat < UInt64.size := by omega
  obtain ⟨place, hplace, hplaceNat⟩ := exists_add? hplaceWord
  refine ⟨place, ?_, ?_⟩
  · rw [storedIndex?, hlast]
    simp only [Option.bind_eq_bind, Option.bind_some, hsum]
    exact hplace
  · rw [hplaceNat, hsumNat, hlastNat, hlevel]
    rfl

/-! ## The number of places -/

theorem and_one_eq_zero_iff {n : UInt64} : n &&& 1 = 0 ↔ n.toNat % 2 = 0 := by
  rw [← UInt64.toNat_inj, UInt64.toNat_and]
  exact Nat.and_one_is_mod n.toNat ▸ Iff.rfl

theorem exists_addTrailingOnes? {rounds : Nat} {total n : UInt64} (hrounds : n.toNat < 2 ^ rounds)
    (h : total.toNat + Tree.trailingOnes n.toNat < UInt64.size) :
    ∃ sum, addTrailingOnes? rounds total n = some sum ∧
      sum.toNat = total.toNat + Tree.trailingOnes n.toNat := by
  induction rounds generalizing total n with
  | zero =>
    obtain rfl : n = 0 := UInt64.toNat_inj.mp (Nat.lt_one_iff.mp hrounds)
    exact ⟨total, rfl, by rw [Tree.trailingOnes_of_even (by rfl), Nat.add_zero]⟩
  | succ rounds ih =>
    rcases Nat.mod_two_eq_zero_or_one n.toNat with heven | hodd
    · refine ⟨total, ?_, by rw [Tree.trailingOnes_of_even heven, Nat.add_zero]⟩
      rw [addTrailingOnes?, if_pos (and_one_eq_zero_iff.mpr heven)]
    · rw [Nat.pow_succ] at hrounds
      rw [Tree.trailingOnes_of_odd hodd, ← Nat.add_assoc, Nat.add_right_comm] at h ⊢
      obtain ⟨half, hhalf, hhalfNat⟩ := exists_half? n
      have hmoreWord : total.toNat + (1 : UInt64).toNat < UInt64.size :=
        Nat.lt_of_le_of_lt (Nat.le_add_right _ _) h
      obtain ⟨more, hmore, hmoreNat⟩ := exists_add? hmoreWord
      have hmoreNat : more.toNat = total.toNat + 1 := hmoreNat
      rw [← hmoreNat, ← hhalfNat] at h ⊢
      obtain ⟨sum, hsum, hsumNat⟩ := ih (by omega) h
      refine ⟨sum, ?_, hsumNat⟩
      rw [addTrailingOnes?, if_neg (mt and_one_eq_zero_iff.mp (by omega)), hmore, hhalf]
      exact hsum

/-- The number of hashes stored for a tree is found in words. -/
theorem exists_storedCount? {size : UInt64} (h : size.toNat ≤ maxLeaves) :
    ∃ count, storedCount? size = some count ∧ count.toNat = Tree.storedCount size.toNat := by
  have hmax : maxLeaves = 2 ^ 62 := rfl
  have hsize : UInt64.size = 2 ^ 64 := rfl
  by_cases hzero : size = 0
  · subst hzero
    exact ⟨0, rfl, rfl⟩
  · have hne : size.toNat ≠ 0 := fun hsame => hzero (UInt64.toNat_inj.mp hsame)
    have hbound := Tree.storedCount_le size.toNat
    rw [Tree.storedCount, if_neg hne] at hbound ⊢
    obtain ⟨last, hlast, hlastNat⟩ := @exists_sub? size 1 (Nat.pos_of_ne_zero hne)
    have hlastNat : last.toNat = size.toNat - 1 := hlastNat
    have hleaf : (last.toNat + 1) * 2 ^ (0 : UInt8).toNat ≤ maxLeaves := by
      rw [UInt8.toNat_zero, Nat.pow_zero]
      omega
    obtain ⟨place, hplace, hplaceNat⟩ := exists_storedIndex? hleaf
    rw [← hlastNat] at hbound ⊢
    have hplaceNat : place.toNat = Tree.storedIndex 0 last.toNat := hplaceNat
    have hnextWord : place.toNat + (1 : UInt64).toNat < UInt64.size := by
      rw [UInt64.toNat_one]
      omega
    obtain ⟨next, hnext, hnextNat⟩ := exists_add? hnextWord
    rw [UInt64.toNat_one, hplaceNat] at hnextNat
    obtain ⟨count, hcount, hcountNat⟩ :=
      @exists_addTrailingOnes? 64 next last last.toNat_lt (by omega)
    refine ⟨count, ?_, hnextNat ▸ hcountNat⟩
    rw [storedCount?, if_neg hzero, hlast]
    simp only [Option.bind_eq_bind, Option.bind_some, hplace, hnext]
    exact hcount

end KeyTransparency.Words
