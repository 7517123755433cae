import KeyTransparency.Proofs.Tree.Root
import KeyTransparency.Tree.Layout

/-!
# Where hashes are stored

The hashes of complete subtrees are stored as leaves complete them, so a leaf adds as many hashes as
its number has one bits at the low end, and its own.  The main statements say how many hashes there
are after each leaf and which subtrees it completes.  A range of leaves whose halves are stored must
begin at the right place: `Aligned` says so, and both halves of an aligned range are aligned.
-/

namespace KeyTransparency.Tree

/-! ## Counting stored hashes -/

theorem hashesBefore_zero : hashesBefore 0 = 0 := by
  rw [hashesBefore, if_pos rfl]

theorem hashesBefore_eq (n : Nat) : hashesBefore n = n + hashesBefore (n / 2) := by
  by_cases hzero : n = 0
  · subst hzero
    rw [hashesBefore_zero]
  · rw [hashesBefore, if_neg hzero]

theorem trailingOnes_of_even {n : Nat} (h : n % 2 = 0) : trailingOnes n = 0 := by
  rw [trailingOnes, if_neg (by omega)]

theorem trailingOnes_of_odd {n : Nat} (h : n % 2 = 1) :
    trailingOnes n = trailingOnes (n / 2) + 1 := by
  rw [trailingOnes, if_pos h]

/-- Appending leaf `n` stores its hash and those of the subtrees it completes. -/
theorem hashesBefore_succ (n : Nat) :
    hashesBefore (n + 1) = hashesBefore n + trailingOnes n + 1 := by
  induction n using Nat.strongRecOn with
  | ind n ih =>
    rw [hashesBefore_eq (n + 1), hashesBefore_eq n]
    rcases Nat.mod_two_eq_zero_or_one n with heven | hodd
    · have hhalf : (n + 1) / 2 = n / 2 := by omega
      rw [hhalf, trailingOnes_of_even heven]
      omega
    · have hhalf : (n + 1) / 2 = n / 2 + 1 := by omega
      rw [hhalf, ih (n / 2) (by omega), trailingOnes_of_odd hodd]
      omega

/-- A leaf completes the subtrees of the sizes that divide the number of leaves it makes. -/
theorem two_pow_dvd_succ_iff {level n : Nat} :
    2 ^ level ∣ n + 1 ↔ level ≤ trailingOnes n := by
  induction level generalizing n with
  | zero => simp
  | succ level ih =>
    rw [Nat.pow_succ]
    rcases Nat.mod_two_eq_zero_or_one n with heven | hodd
    · rw [trailingOnes_of_even heven]
      constructor
      · intro hdvd
        have htwo : 2 ∣ n + 1 := Nat.dvd_trans (Nat.dvd_mul_left 2 _) hdvd
        omega
      · omega
    · have hdouble : n + 1 = (n / 2 + 1) * 2 := by omega
      rw [trailingOnes_of_odd hodd, hdouble, Nat.mul_dvd_mul_iff_right (by decide), ih]
      omega

/-- As many hashes are stored for a tree as there are before the next leaf. -/
theorem storedCount_eq_hashesBefore (size : Nat) : storedCount size = hashesBefore size := by
  cases size with
  | zero => rw [hashesBefore_zero, storedCount, if_pos rfl]
  | succ n =>
    rw [hashesBefore_succ, storedCount, if_neg (Nat.succ_ne_zero n), storedIndex]
    simp only [Nat.add_sub_cancel, Nat.pow_zero, Nat.mul_one]
    omega

/-- There are fewer complete subtrees of two leaves or more than there are leaves. -/
theorem storedCount_le (size : Nat) : storedCount size ≤ 2 * size := by
  rw [storedCount_eq_hashesBefore]
  induction size using Nat.strongRecOn with
  | ind size ih =>
    by_cases hzero : size = 0
    · subst hzero
      exact Nat.le_of_eq hashesBefore_zero
    · have hhalf := ih (size / 2) (by omega)
      rw [hashesBefore_eq]
      omega

/-! ## Ranges that are made of complete subtrees -/

/-- A range that lies within a complete subtree and begins with it. -/
def Aligned (start size : Nat) : Prop := ∃ level : Nat, size ≤ 2 ^ level ∧ 2 ^ level ∣ start

namespace Aligned

variable {start size : Nat}

theorem zero (size : Nat) : Aligned 0 size :=
  ⟨size, Nat.le_of_lt Nat.lt_two_pow_self, Nat.dvd_zero _⟩

theorem dvd_of_le (h : Aligned start size) {level : Nat} (hle : 2 ^ level ≤ size) :
    2 ^ level ∣ start := by
  obtain ⟨top, hsize, hdvd⟩ := h
  have hlevels : level ≤ top := (Nat.pow_le_pow_iff_right (by decide)).mp (Nat.le_trans hle hsize)
  exact Nat.dvd_trans (Nat.pow_dvd_pow 2 hlevels) hdvd

theorem left (h : Aligned start size) (htwo : 2 ≤ size) : Aligned start (leftSize size) :=
  ⟨(size - 1).log2, Nat.le_refl _, h.dvd_of_le (Nat.le_of_lt (leftSize_lt htwo))⟩

theorem right (h : Aligned start size) (htwo : 2 ≤ size) :
    Aligned (start + leftSize size) (size - leftSize size) := by
  have hdvd : leftSize size ∣ start := h.dvd_of_le (Nat.le_of_lt (leftSize_lt htwo))
  have hdouble := le_two_mul_leftSize htwo
  refine ⟨(size - 1).log2, ?_, ?_⟩
  · change size - leftSize size ≤ leftSize size
    omega
  · exact Nat.dvd_add hdvd (Nat.dvd_refl _)

end Aligned

theorem completeSubtrees_zero (start : Nat) : completeSubtrees start 0 = [] := by
  rw [completeSubtrees, if_pos rfl]

theorem completeSubtrees_of_ne_zero (start : Nat) {size : Nat} (h : size ≠ 0) :
    completeSubtrees start size =
      ⟨size.log2, start⟩ ::
        completeSubtrees (start + 2 ^ size.log2) (size - 2 ^ size.log2) := by
  rw [completeSubtrees, if_neg h]

end KeyTransparency.Tree
