import KeyTransparency.Proofs.Tree.Frontier
import KeyTransparency.Proofs.Words.Run
import KeyTransparency.Words.Frontier

/-!
# Finding a frontier in words never halts

The first leaf of the next subtree at a level differs from the leaf's number in the level's bit and
in the bits below, so it is a word wherever the number is, although its size need not be.
-/

namespace KeyTransparency.Words

variable {n size : UInt64} {level : Nat}

/-- Where the bit of a level is not set, the next subtree of this level begins at a word. -/
theorem nextSubtreeStart_lt_size (hlevel : level < 64)
    (hbit : n.toNat.testBit level = false) :
    n.toNat / 2 ^ level + 1 < UInt64.size ∧
      Tree.nextSubtreeStart n.toNat level < UInt64.size := by
  have heven : n.toNat / 2 ^ level % 2 = 0 := by
    simpa [Nat.testBit, Nat.shiftRight_eq_div_pow] using hbit
  have hsplit : UInt64.size = 2 ^ (63 - level) * 2 * 2 ^ level := by
    have hexponent : (63 - level).succ + level = 64 := by omega
    rw [← Nat.pow_succ, ← Nat.pow_add, hexponent]
  have hbelow : n.toNat / 2 ^ level < 2 ^ (63 - level) * 2 := by
    rw [Nat.div_lt_iff_lt_mul (Nat.two_pow_pos level), ← hsplit]
    exact n.toNat_lt
  -- both numbers are even, so there is room for one more
  have hnext : n.toNat / 2 ^ level + 1 < 2 ^ (63 - level) * 2 := by omega
  rw [Tree.nextSubtreeStart_eq, hsplit]
  refine ⟨?_, (Nat.mul_lt_mul_right (Nat.two_pow_pos level)).mpr hnext⟩
  exact Nat.lt_of_lt_of_le hnext (Nat.le_mul_of_pos_right _ (Nat.two_pow_pos level))

/-- The lowest bit of the number above a level is the bit of this level. -/
theorem and_one_eq_one_iff {subtree : UInt64} (h : subtree.toNat = n.toNat >>> level) :
    subtree &&& 1 = 1 ↔ n.toNat.testBit level = true := by
  have hone : (1 : UInt64).toNat = 1 := rfl
  rw [← UInt64.toNat_inj, UInt64.toNat_and, h, hone, Nat.testBit, Nat.and_comm, bne_iff_ne]
  have hbound : 1 &&& n.toNat >>> level ≤ 1 := Nat.and_le_left
  omega

theorem frontierAt?_eq {levels : List Nat} (hlevels : ∀ level ∈ levels, level < 64) :
    (frontierAt? n size levels).map (List.map (·.toNat)) =
      some (((levels.filter fun level => !n.toNat.testBit level).map
        (Tree.nextSubtreeStart n.toNat)).takeWhile (· < size.toNat)) := by
  induction levels with
  | nil => rfl
  | cons level levels ih =>
    have hlevel := hlevels level List.mem_cons_self
    have hrest := ih fun later hlater => hlevels later (List.mem_cons_of_mem _ hlater)
    obtain ⟨subtree, hsubtree, hsubtreeNat⟩ := exists_shiftRight? n hlevel
    rw [frontierAt?, hsubtree]
    simp only [Option.bind_eq_bind, Option.bind_some, and_one_eq_one_iff hsubtreeNat]
    by_cases hbit : n.toNat.testBit level = true
    · rw [if_pos hbit, List.filter_cons_of_neg (by simp [hbit])]
      exact hrest
    · have hclear : n.toNat.testBit level = false := Bool.not_eq_true _ ▸ hbit
      obtain ⟨hnext, hstart⟩ := nextSubtreeStart_lt_size hlevel hclear
      rw [← Nat.shiftRight_eq_div_pow, ← hsubtreeNat] at hnext
      obtain ⟨next, hadd, hnextNat⟩ := @exists_add? subtree 1 hnext
      have hshift : next.toNat <<< level = Tree.nextSubtreeStart n.toNat level := by
        rw [hnextNat, hsubtreeNat]
        rfl
      obtain ⟨start, hshifted, hstartNat⟩ := exists_shiftLeft? hlevel (hshift ▸ hstart)
      rw [hshift] at hstartNat
      rw [if_neg hbit, hadd, Option.bind_some, hshifted, Option.bind_some,
        List.filter_cons_of_pos (by simp [hclear]), List.map_cons]
      by_cases hinside : Tree.nextSubtreeStart n.toNat level < size.toNat
      · have hbelow : ¬size ≤ start := by
          rw [UInt64.le_iff_toNat_le, hstartNat]
          exact Nat.not_le.mpr hinside
        obtain ⟨later, hlater, hlaterNat⟩ := Option.map_eq_some_iff.mp hrest
        rw [if_neg hbelow, List.takeWhile_cons_of_pos (by simpa using hinside), hlater,
          ← hlaterNat, ← hstartNat]
        rfl
      · have habove : size ≤ start := by
          rw [UInt64.le_iff_toNat_le, hstartNat]
          exact Nat.not_lt.mp hinside
        rw [if_pos habove, List.takeWhile_cons_of_neg (by simpa using hinside)]
        rfl

/-- The frontier is found in words without halting. -/
theorem frontier?_eq (n size : UInt64) :
    (frontier? n size).map (List.map (·.toNat)) = some (Tree.frontier n.toNat size.toNat) :=
  frontierAt?_eq fun _ hlevel => List.mem_range.mp hlevel

end KeyTransparency.Words
