import KeyTransparency.Proofs.Curve.Primes
import Mathlib.NumberTheory.LegendreSymbol.Basic
import Mathlib.Tactic.LinearCombination
import Mathlib.Tactic.Ring

/-!
# The field of the coordinates

Coordinates are numbers that stand for their residues modulo the prime modulus, and the operations
on them are those of the field of residues.  A quotient that has a square root has one that is even
as a number below the modulus, and this is the one that is found.
-/

namespace KeyTransparency.Edwards25519

instance : Fact modulus.Prime := ⟨prime_modulus⟩

namespace Field

/-! ## Operations on residues -/

theorem modulus_pos : 0 < modulus := prime_modulus.pos

theorem sub_lt (a b : Nat) : sub a b < modulus := Nat.mod_lt _ modulus_pos

theorem mul_lt (a b : Nat) : mul a b < modulus := Nat.mod_lt _ modulus_pos

@[simp]
theorem cast_sub (a b : Nat) : (sub a b : ZMod modulus) = a - b := by
  have hle : b % modulus ≤ modulus := (Nat.mod_lt b modulus_pos).le
  rw [sub, ZMod.natCast_mod, Nat.cast_add, Nat.cast_sub hle, ZMod.natCast_self, ZMod.natCast_mod]
  ring

@[simp]
theorem cast_mul (a b : Nat) : (mul a b : ZMod modulus) = a * b := by
  rw [mul, ZMod.natCast_mod, Nat.cast_mul]

/-- Powers of coordinates are powers modulo the modulus. -/
theorem pow_eq_powMod (a exponent : Nat) : pow a exponent = Primes.powMod modulus a exponent := rfl

@[simp]
theorem cast_pow (a exponent : Nat) :
    (pow a exponent : ZMod modulus) = (a : ZMod modulus) ^ exponent := by
  rw [pow_eq_powMod, Primes.cast_powMod]

@[simp]
theorem cast_inv (a : Nat) : (inv a : ZMod modulus) = (a : ZMod modulus)⁻¹ := by
  rw [inv, cast_pow]
  by_cases ha : (a : ZMod modulus) = 0
  · rw [ha, inv_zero]
    exact zero_pow (by decide)
  · apply eq_inv_of_mul_eq_one_left
    rw [← pow_succ]
    exact ZMod.pow_card_sub_one_eq_one ha

/-- Coordinates below the modulus are equal if they stand for the same residue. -/
theorem eq_of_cast_eq {a b : Nat} (ha : a < modulus) (hb : b < modulus)
    (h : (a : ZMod modulus) = b) : a = b := by
  have hmod := (ZMod.natCast_eq_natCast_iff' a b modulus).mp h
  rwa [Nat.mod_eq_of_lt ha, Nat.mod_eq_of_lt hb] at hmod

/-! ## Square roots -/

/-- A square root of a residue, or the opposite of it, that is an even number. -/
def even (root : Nat) : Nat := if root % 2 = 0 then root else sub 0 root

theorem odd_modulus : modulus % 2 = 1 := by decide

theorem even_spec {root : Nat} (hroot : root < modulus) :
    even root < modulus ∧ even root % 2 = 0 ∧
      (even root : ZMod modulus) ^ 2 = (root : ZMod modulus) ^ 2 := by
  unfold even
  split
  · rename_i heven
    exact ⟨hroot, heven, rfl⟩
  · rename_i hodd
    refine ⟨sub_lt 0 root, ?_, by simp⟩
    have hmodulus := odd_modulus
    have hbelow : 0 + (modulus - root) < modulus := by omega
    rw [sub, Nat.mod_eq_of_lt hroot, Nat.mod_eq_of_lt hbelow]
    omega

/-- A residue has one square root that is an even number. -/
theorem eq_of_sq_eq_of_even {a b : Nat} (ha : a < modulus) (hb : b < modulus)
    (heven : a % 2 = 0) (heven' : b % 2 = 0)
    (h : (a : ZMod modulus) ^ 2 = (b : ZMod modulus) ^ 2) : a = b := by
  rcases sq_eq_sq_iff_eq_or_eq_neg.mp h with hsame | hopposite
  · exact eq_of_cast_eq ha hb hsame
  · have hsum : ((a + b : Nat) : ZMod modulus) = 0 := by
      rw [Nat.cast_add, hopposite, neg_add_cancel]
    obtain ⟨factor, hfactor⟩ := (ZMod.natCast_eq_zero_iff _ _).mp hsum
    have hmodulus := odd_modulus
    -- the sum of the two is even and below twice the modulus, which is odd
    have hfew : factor < 2 := by
      by_contra hmany
      have := Nat.mul_le_mul_left modulus (Nat.le_of_not_lt hmany)
      omega
    interval_cases factor
    · omega
    · omega

/-- What is tried as a square root of a quotient. -/
def candidate (numerator denominator : Nat) : Nat :=
  let cube := mul (mul denominator denominator) denominator
  let seventh := mul (mul cube cube) denominator
  mul (mul numerator cube) (pow (mul numerator seventh) ((modulus - 5) / 8))

theorem candidate_lt (numerator denominator : Nat) : candidate numerator denominator < modulus :=
  mul_lt _ _

theorem sqrtDiv?_eq (numerator denominator : Nat) :
    sqrtDiv? numerator denominator =
      let root := candidate numerator denominator
      let check := mul denominator (mul root root)
      if check = numerator % modulus then some (even root)
      else if check = sub 0 numerator then some (even (mul root rootOfMinusOne))
      else none := rfl

theorem rootOfMinusOne_sq : (rootOfMinusOne : ZMod modulus) ^ 2 = -1 := by
  have h : mul rootOfMinusOne rootOfMinusOne = sub 0 1 := by decide
  have hcast := congrArg (Nat.cast : Nat → ZMod modulus) h
  simpa [pow_two] using hcast

variable {numerator denominator root : Nat}

/-- A root that is found is even and a square root of the quotient. -/
theorem sqrtDiv?_spec (h : sqrtDiv? numerator denominator = some root) :
    root < modulus ∧ root % 2 = 0 ∧
      (denominator : ZMod modulus) * (root : ZMod modulus) ^ 2 = numerator := by
  rw [sqrtDiv?_eq] at h
  simp only at h
  split at h
  · rename_i hcheck
    cases h
    obtain ⟨hlt, heven, hsquare⟩ := even_spec (candidate_lt numerator denominator)
    refine ⟨hlt, heven, ?_⟩
    have hcast := congrArg (Nat.cast : Nat → ZMod modulus) hcheck
    rw [cast_mul, cast_mul, ZMod.natCast_mod, ← pow_two] at hcast
    rw [hsquare, hcast]
  · split at h
    · rename_i hcheck
      cases h
      obtain ⟨hlt, heven, hsquare⟩ :=
        even_spec (mul_lt (candidate numerator denominator) rootOfMinusOne)
      refine ⟨hlt, heven, ?_⟩
      have hcast := congrArg (Nat.cast : Nat → ZMod modulus) hcheck
      rw [cast_mul, cast_mul, cast_sub, Nat.cast_zero, zero_sub] at hcast
      rw [hsquare, cast_mul, mul_pow, rootOfMinusOne_sq]
      linear_combination -hcast
    · cases h

theorem half_modulus : modulus / 2 = 2 * (2 * ((modulus - 5) / 8) + 1) := by decide

/-- If the quotient has a square root, the candidate is a square root of it or of its opposite. -/
theorem candidate_sq {x : ZMod modulus} (hx : (denominator : ZMod modulus) * x ^ 2 = numerator) :
    (denominator : ZMod modulus) * (candidate numerator denominator : ZMod modulus) ^ 2 =
        numerator ∨
      (denominator : ZMod modulus) * (candidate numerator denominator : ZMod modulus) ^ 2 =
        -numerator := by
  by_cases hzero : (denominator : ZMod modulus) * x = 0
  · have hnumerator : (numerator : ZMod modulus) = 0 := by rw [← hx, pow_two, ← mul_assoc, hzero,
      zero_mul]
    left
    simp [candidate, hnumerator]
  · -- the power in the candidate is that of a square, up to a factor
    have hsquare : (denominator : ZMod modulus) *
        (candidate numerator denominator : ZMod modulus) ^ 2 =
          numerator * ((denominator : ZMod modulus) ^ 4 * x) ^ (modulus / 2) := by
      rw [half_modulus, pow_mul]
      simp only [candidate, cast_mul, cast_pow, ← hx]
      ring
    have hne : (denominator : ZMod modulus) ^ 4 * x ≠ 0 := by
      obtain ⟨hd, hxne⟩ := mul_ne_zero_iff.mp hzero
      exact mul_ne_zero (pow_ne_zero 4 hd) hxne
    rcases ZMod.pow_div_two_eq_neg_one_or_one modulus hne with hone | hminus
    · left
      rw [hsquare, hone, mul_one]
    · right
      rw [hsquare, hminus, mul_neg, mul_one]

/-- A root is found exactly if it is an even square root of the quotient. -/
theorem sqrtDiv?_eq_some_iff (hd : (denominator : ZMod modulus) ≠ 0) :
    sqrtDiv? numerator denominator = some root ↔
      root < modulus ∧ root % 2 = 0 ∧
        (denominator : ZMod modulus) * (root : ZMod modulus) ^ 2 = numerator := by
  refine ⟨sqrtDiv?_spec, ?_⟩
  rintro ⟨hlt, heven, hroot⟩
  obtain ⟨found, hfound⟩ : ∃ found, sqrtDiv? numerator denominator = some found := by
    rw [sqrtDiv?_eq]
    simp only
    rcases candidate_sq hroot with hsame | hopposite
    · rw [if_pos]
      · exact ⟨_, rfl⟩
      · refine eq_of_cast_eq (mul_lt _ _) (Nat.mod_lt _ modulus_pos) ?_
        rw [cast_mul, cast_mul, ZMod.natCast_mod, ← pow_two, hsame]
    · split
      · exact ⟨_, rfl⟩
      · rw [if_pos]
        · exact ⟨_, rfl⟩
        · refine eq_of_cast_eq (mul_lt _ _) (sub_lt _ _) ?_
          rw [cast_mul, cast_mul, cast_sub, Nat.cast_zero, zero_sub, ← pow_two, hopposite]
  obtain ⟨hlt', heven', hroot'⟩ := sqrtDiv?_spec hfound
  have hsame := eq_of_sq_eq_of_even hlt' hlt heven' heven
    (mul_left_cancel₀ hd (hroot'.trans hroot.symm))
  rw [hfound, hsame]

end Field

end KeyTransparency.Edwards25519
