import KeyTransparency.Json.Double
import KeyTransparency.Proofs.Json.Numeral

/-!
# Integers as doubles

An integer that fits a word is taken as a double that is a whole number too.  It need not be the
same number, because of the rounding in each of the two steps, but it is zero for zero only.
-/

namespace KeyTransparency

namespace Double

variable {x : Double} {a d n : Nat}

/-! ## Doubles that are natural numbers -/

theorem parts_of_nonneg (h : 0 ≤ x.power) :
    x.numerator = x.mantissa * 2 ^ x.power.natAbs ∧ x.denominator = 1 := by
  have hnumerator : x.power.toNat = x.power.natAbs := by omega
  have hdenominator : (-x.power).toNat = 0 := by omega
  rw [numerator, denominator, hnumerator, hdenominator]
  exact ⟨rfl, rfl⟩

theorem parts_of_neg (h : ¬0 ≤ x.power) :
    x.numerator = x.mantissa ∧ x.denominator = 2 ^ x.power.natAbs := by
  have hnumerator : x.power.toNat = 0 := by omega
  have hdenominator : (-x.power).toNat = x.power.natAbs := by omega
  rw [numerator, denominator, hnumerator, hdenominator]
  exact ⟨Nat.mul_one _, rfl⟩

/-- The double is a natural number. -/
structure IsNat (x : Double) (n : Nat) : Prop where
  negative : x.negative = false
  numerator : x.numerator = n * x.denominator

theorem IsNat.isWhole (h : x.IsNat n) : x.isWhole := by
  by_cases hpower : 0 ≤ x.power
  · simp [Double.isWhole, hpower]
  · obtain ⟨hnumerator, hdenominator⟩ := parts_of_neg hpower
    have hmantissa : x.mantissa = n * 2 ^ x.power.natAbs := by
      rw [← hnumerator, h.numerator, hdenominator]
    simp [Double.isWhole, hmantissa]

theorem IsNat.atLeast (h : x.IsNat n) (bound : Nat) : x.atLeast bound = decide (bound ≤ n) := by
  by_cases hzero : x.mantissa = 0
  · have hnumerator : n * x.denominator = 0 := by
      rw [← h.numerator, Double.numerator, hzero, Nat.zero_mul]
    have hn : n = 0 :=
      (Nat.mul_eq_zero.mp hnumerator).resolve_right (Nat.two_pow_pos _).ne'
    rw [Double.atLeast, if_pos hzero, hn, Bool.eq_iff_iff]
    simp
  · rw [Double.atLeast, if_neg hzero, h.negative, if_neg (by decide)]
    by_cases hpower : 0 ≤ x.power
    · obtain ⟨hnumerator, hdenominator⟩ := parts_of_nonneg hpower
      have hn : x.mantissa * 2 ^ x.power.natAbs = n := by
        rw [← hnumerator, h.numerator, hdenominator, Nat.mul_one]
      rw [if_pos hpower, hn]
    · obtain ⟨hnumerator, hdenominator⟩ := parts_of_neg hpower
      have hmantissa : x.mantissa = n * 2 ^ x.power.natAbs := by
        rw [← hnumerator, h.numerator, hdenominator]
      have hscaled : bound * 2 ^ x.power.natAbs ≤ n * 2 ^ x.power.natAbs ↔ bound ≤ n :=
        Nat.mul_le_mul_right_iff (Nat.two_pow_pos _)
      rw [if_neg hpower, hmantissa]
      exact decide_eq_decide.mpr hscaled

/-! ## Rounding -/

theorem roundDiv_mul (a : Nat) (hd : 0 < d) : roundDiv (a * d) d = a := by
  have hexact : ¬(d < 2 * (a * d % d) ∨ (d = 2 * (a * d % d) ∧ a * d / d % 2 = 1)) := by
    rw [Nat.mul_mod_left]
    omega
  rw [roundDiv, if_neg hexact, Nat.mul_div_cancel _ hd]

theorem roundDiv_bounds (a d : Nat) : a / d ≤ roundDiv a d ∧ roundDiv a d ≤ a / d + 1 := by
  rw [roundDiv]
  split
  · exact ⟨Nat.le_succ _, Nat.le_refl _⟩
  · exact ⟨Nat.le_refl _, Nat.le_succ _⟩

/-- A number that is rounded to a multiple of a unit not above it does not become zero, and is at
most doubled. -/
theorem roundDiv_mul_mul_bounds {unit : Nat} (hd : 0 < d) (hunit : 0 < unit) (hle : unit ≤ n) :
    0 < roundDiv (n * d) (d * unit) ∧ roundDiv (n * d) (d * unit) * unit ≤ 2 * n := by
  have hquotient : n * d / (d * unit) = n / unit := by
    rw [Nat.mul_comm n d, Nat.mul_div_mul_left _ _ hd]
  obtain ⟨hleast, hgreatest⟩ := roundDiv_bounds (n * d) (d * unit)
  rw [hquotient] at hleast hgreatest
  refine ⟨(Nat.div_pos hle hunit).trans_le hleast, ?_⟩
  calc roundDiv (n * d) (d * unit) * unit
      ≤ (n / unit + 1) * unit := Nat.mul_le_mul_right _ hgreatest
    _ = n / unit * unit + unit := Nat.succ_mul _ _
    _ ≤ n + n := Nat.add_le_add (Nat.div_mul_le_self _ _) hle
    _ = 2 * n := (Nat.two_mul n).symm

/-- The power of two with the logarithm of a quotient is not above the quotient. -/
theorem mul_two_pow_log2Div_le (h : 0 ≤ log2Div a d) :
    d * 2 ^ (log2Div a d).natAbs ≤ a := by
  rw [log2Div] at h ⊢
  by_cases hguess : (0 : Int) ≤ a.log2 - d.log2
  · simp only [if_pos hguess] at h ⊢
    by_cases hreached : d * 2 ^ ((a.log2 : Int) - d.log2).natAbs ≤ a
    · rw [if_pos hreached]
      exact hreached
    · -- The guess was one too high, and the power below it is within the power of the numerator.
      rw [if_neg hreached] at h ⊢
      have ha : a ≠ 0 := by
        rintro rfl
        have hlog : Nat.log2 0 = 0 := by decide
        omega
      have hexponent : d.log2 + 1 + ((a.log2 : Int) - d.log2 - 1).natAbs = a.log2 := by omega
      calc d * 2 ^ ((a.log2 : Int) - d.log2 - 1).natAbs
          ≤ 2 ^ (d.log2 + 1) * 2 ^ ((a.log2 : Int) - d.log2 - 1).natAbs :=
            Nat.mul_le_mul_right _ Nat.lt_log2_self.le
        _ = 2 ^ a.log2 := by rw [← Nat.pow_add, hexponent]
        _ ≤ a := Nat.log2_self_le ha
  · simp only [if_neg hguess] at h
    split at h <;> omega

/-- A quotient that is a natural number is rounded to a natural number, which is at most twice as
large, and zero for zero only. -/
theorem exists_ofQuotient? (hd : 0 < d) (hrange : 2 * n < 2 ^ greatestPower) :
    ∃ x m, ofQuotient? false (n * d) d = some x ∧ x.IsNat m ∧ (m = 0 ↔ n = 0) ∧ m ≤ 2 * n := by
  have hlog := @mul_two_pow_log2Div_le (n * d) d
  rw [ofQuotient?]
  generalize log2Div (n * d) d = log at hlog ⊢
  generalize hpower : max (log - 52) (-1074) = power
  by_cases hsign : 0 ≤ power
  · have hle : 2 ^ power.natAbs ≤ n := by
      refine (Nat.pow_le_pow_right (by decide) ?_).trans
        (Nat.le_of_mul_le_mul_left (Nat.mul_comm n d ▸ hlog (by omega)) hd)
      omega
    have hpos : 0 < 2 ^ power.natAbs := Nat.two_pow_pos _
    obtain ⟨hmantissa, hbound⟩ := roundDiv_mul_mul_bounds hd hpos hle
    simp only [if_pos hsign]
    rw [if_neg fun h => (hbound.trans_lt hrange).not_ge h.2]
    refine ⟨_, _, rfl, ⟨rfl, ?_⟩, ?_, hbound⟩
    · obtain ⟨hnumerator, hdenominator⟩ :=
        @parts_of_nonneg ⟨false, roundDiv (n * d) (d * 2 ^ power.natAbs), power⟩ hsign
      rw [hnumerator, hdenominator, Nat.mul_one]
    · exact iff_of_false (Nat.mul_pos hmantissa hpos).ne' (hpos.trans_le hle).ne'
  · simp only [if_neg hsign]
    rw [if_neg fun h => hsign h.1]
    have hmantissa : roundDiv (n * d * 2 ^ power.natAbs) d = n * 2 ^ power.natAbs := by
      rw [Nat.mul_right_comm, roundDiv_mul _ hd]
    obtain ⟨hnumerator, hdenominator⟩ :=
      @parts_of_neg ⟨false, n * 2 ^ power.natAbs, power⟩ hsign
    rw [hmantissa]
    refine ⟨_, n, rfl, ⟨rfl, ?_⟩, Iff.rfl, by omega⟩
    rw [hnumerator, hdenominator]

/-- A product of natural numbers is rounded to a natural number. -/
theorem exists_mul? {y : Double} {k : Nat} (hx : x.IsNat n) (hy : y.IsNat k)
    (hrange : 2 * (n * k) < 2 ^ greatestPower) :
    ∃ z m, x.mul? y = some z ∧ z.IsNat m ∧ (m = 0 ↔ n * k = 0) := by
  have hnumerator : x.numerator * y.numerator = n * k * (x.denominator * y.denominator) := by
    rw [hx.numerator, hy.numerator, Nat.mul_mul_mul_comm]
  have hpos : 0 < x.denominator * y.denominator :=
    Nat.mul_pos (Nat.two_pow_pos _) (Nat.two_pow_pos _)
  obtain ⟨z, m, hz, hm, hzero, -⟩ := exists_ofQuotient? hpos hrange
  rw [mul?, hx.negative, hy.negative, hnumerator]
  exact ⟨z, m, hz, hm, hzero⟩

end Double

namespace Numeral

/-! ## Integers -/

theorem le_foldl_digits (value : Nat) (digits : List Nat) :
    value ≤ digits.foldl (fun value digit => 10 * value + digit) value := by
  induction digits generalizing value with
  | nil => exact Nat.le_refl _
  | cons digit rest ih =>
    have hnext := ih (10 * value + digit)
    rw [List.foldl_cons]
    omega

theorem takeDigits_of_lt {value : Nat} {digits : List Nat}
    (h : digits.foldl (fun value digit => 10 * value + digit) value < UInt64.size) :
    takeDigits value digits =
      (digits.foldl (fun value digit => 10 * value + digit) value, []) := by
  induction digits generalizing value with
  | nil => rfl
  | cons digit rest ih =>
    rw [List.foldl_cons] at h ⊢
    rw [takeDigits, if_pos ((le_foldl_digits _ rest).trans_lt h), ih h]

theorem leading_ofInt {n : Nat} (h : n < UInt64.size) : (ofInt n).leading = (n, 0) := by
  have hdigits : ((digitChars n).map digitValue).foldl (fun value digit => 10 * value + digit) 0 =
      n := by
    rw [List.foldl_map]
    exact ofDigits_digitChars n
  have htaken : takeDigits 0 ((digitChars (ofInt n).whole).map digitValue) = (n, []) := by
    have hwhole : (ofInt n).whole = n := rfl
    rw [hwhole, takeDigits_of_lt (hdigits.symm ▸ h), hdigits]
  rw [leading, htaken]
  rfl

/-- An integer that fits a word is taken as a double that is a whole number, and zero only if it
is zero. -/
theorem exists_toDouble?_ofInt {n : Nat} (h : n < UInt64.size) :
    ∃ x m, (ofInt n).toDouble? = some x ∧ x.IsNat m ∧ (m = 0 ↔ n = 0) := by
  have hsize : 8 * UInt64.size ≤ 2 ^ Double.greatestPower :=
    (by decide : 8 * UInt64.size ≤ 2 ^ 67).trans (Nat.pow_le_pow_right (by decide) (by decide))
  have hrange : 8 * n < 2 ^ Double.greatestPower := by omega
  obtain ⟨start, m, hstart, hm, hzero, hbound⟩ :=
    @Double.exists_ofQuotient? 1 n (by decide) (by omega)
  obtain ⟨one, k, hone, hk, honezero, honebound⟩ :=
    @Double.exists_ofQuotient? 1 1 (by decide)
      ((by decide : 2 * 1 < 8 * UInt64.size).trans_le hsize)
  have hproduct : 2 * (m * k) ≤ 8 * n := by
    have hscaled := Nat.mul_le_mul hbound honebound
    omega
  obtain ⟨x, l, hx, hl, hlzero⟩ := Double.exists_mul? hm hk (hproduct.trans_lt hrange)
  refine ⟨x, l, ?_, hl, ?_⟩
  · have hnegative : (ofInt n).negative = false :=
      (decide_eq_false (by omega) : decide ((n : Int) < 0) = false)
    have hten : Double.tenPower? 0 = some one := hone
    rw [Nat.mul_one] at hstart
    rw [toDouble?, leading_ofInt h]
    simp only [Option.bind_eq_bind]
    rw [hnegative, hstart, Option.bind_some, if_pos (Int.le_refl 0), Int.natAbs_zero,
      Double.scaleUp?, if_pos (Nat.zero_le _), hten]
    exact hx
  · rw [hlzero, Nat.mul_eq_zero, or_iff_left fun hkzero => absurd (honezero.mp hkzero) (by decide)]
    exact hzero

end Numeral

end KeyTransparency
