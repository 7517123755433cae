import KeyTransparency.Json.Numeral
import Mathlib.Data.List.TakeWhile

/-!
# Integers are read back

The digits of a number have its value, and the first of them is zero only for zero itself.  So the
plain spelling of an integer is read as the integer.
-/

namespace KeyTransparency.Numeral

/-! ## Digits -/

theorem isDigit_of_mem_digitChars {n : Nat} {c : Char} (h : c ∈ digitChars n) : c.isDigit :=
  Nat.isDigit_of_mem_toDigits (by decide) (by decide) h

theorem exists_digitChars (n : Nat) :
    ∃ first rest, digitChars n = first :: rest ∧ first.isDigit ∧ ∀ c ∈ rest, c.isDigit := by
  obtain ⟨first, rest, hdigits⟩ : ∃ first rest, digitChars n = first :: rest :=
    List.exists_cons_of_ne_nil Nat.toDigits_ne_nil
  have hall := @isDigit_of_mem_digitChars n
  rw [hdigits] at hall
  exact ⟨first, rest, hdigits, hall List.mem_cons_self,
    fun c hc => hall (List.mem_cons_of_mem _ hc)⟩

/-- The last digit comes off the end. -/
theorem digitChars_of_ten_le {n : Nat} (h : 10 ≤ n) :
    digitChars n = digitChars (n / 10) ++ [(n % 10).digitChar] :=
  Nat.toDigits_of_base_le (by decide) h

theorem ofDigits_concat (digits : List Char) (last : Char) :
    ofDigits (digits ++ [last]) = 10 * ofDigits digits + digitValue last := by
  rw [ofDigits, List.foldl_append]
  rfl

theorem ofDigits_digitChars (n : Nat) : ofDigits (digitChars n) = n := by
  induction n using Nat.strongRecOn with
  | ind n ih =>
    by_cases hsmall : n < 10
    · rw [digitChars, Nat.toDigits_of_lt_base hsmall]
      exact (Nat.zero_add _).trans (Nat.toNat_digitChar_sub_48_of_lt_ten hsmall)
    · have hlast : digitValue (n % 10).digitChar = n % 10 :=
        Nat.toNat_digitChar_sub_48_of_lt_ten (Nat.mod_lt n (by decide))
      rw [digitChars_of_ten_le (by omega), ofDigits_concat, ih (n / 10) (by omega), hlast]
      omega

theorem head?_digitChars_ne_zero {n : Nat} (h : n ≠ 0) : (digitChars n).head? ≠ some '0' := by
  induction n using Nat.strongRecOn with
  | ind n ih =>
    by_cases hsmall : n < 10
    · rw [digitChars, Nat.toDigits_of_lt_base hsmall]
      simpa using h
    · have hrest := ih (n / 10) (by omega) (by omega)
      obtain ⟨first, rest, hdigits, -⟩ := exists_digitChars (n / 10)
      rw [hdigits] at hrest
      rw [digitChars_of_ten_le (by omega), hdigits]
      exact hrest

/-! ## Plain spellings -/

/-- A number is spelled without needless zeros. -/
theorem unsigned?_digitChars (negative : Bool) (n : Nat) :
    unsigned? negative (digitChars n) = some ⟨negative, n, [], none⟩ := by
  have hdigits : ∀ c ∈ digitChars n, c.isDigit := fun c hc => isDigit_of_mem_digitChars hc
  have hshort : (digitChars n).length = 1 ∨
      (digitChars n ≠ [] ∧ (digitChars n).head? ≠ some '0') := by
    by_cases hzero : n = 0
    · exact .inl (hzero ▸ rfl)
    · exact .inr ⟨Nat.toDigits_ne_nil, head?_digitChars_ne_zero hzero⟩
  have htake : (digitChars n).takeWhile Char.isDigit = digitChars n :=
    List.takeWhile_eq_self_iff.mpr hdigits
  have hdrop : (digitChars n).dropWhile Char.isDigit = [] := List.dropWhile_eq_nil_iff.mpr hdigits
  have hguard : (guard ((digitChars n).length = 1 ∨
      (digitChars n ≠ [] ∧ (digitChars n).head? ≠ some '0')) : Option Unit) = some () :=
    if_pos hshort
  rw [unsigned?, htake, hdrop, ofDigits_digitChars, hguard]
  rfl

theorem chars_ofInt (n : Int) :
    (ofInt n).chars = if n < 0 then '-' :: digitChars n.natAbs else digitChars n.natAbs := by
  by_cases hnegative : n < 0
  · simp [chars, ofInt, hnegative]
  · simp [chars, ofInt, hnegative]

/-- The plain spelling of an integer begins with a minus sign or a digit. -/
theorem exists_chars_ofInt (n : Int) :
    ∃ first rest, (ofInt n).chars = first :: rest ∧ (first = '-' ∨ first.isDigit) ∧
      ∀ c ∈ rest, isNumeralChar c := by
  rw [chars_ofInt]
  split
  · refine ⟨'-', _, rfl, .inl rfl, fun c hc => ?_⟩
    simp [isNumeralChar, isDigit_of_mem_digitChars hc]
  · obtain ⟨first, rest, hdigits, hfirst, hrest⟩ := exists_digitChars n.natAbs
    refine ⟨first, rest, hdigits, .inr hfirst, fun c hc => ?_⟩
    simp [isNumeralChar, hrest c hc]

/-- An integer is read back from its plain spelling. -/
theorem ofChars?_chars_ofInt (n : Int) : ofChars? (ofInt n).chars = some (ofInt n) := by
  rw [chars_ofInt]
  split
  · rename_i hnegative
    rw [ofChars?, unsigned?_digitChars]
    simp [ofInt, hnegative]
  · rename_i hnegative
    have hunsigned : ofChars? (digitChars n.natAbs) = unsigned? false (digitChars n.natAbs) := by
      obtain ⟨first, rest, hdigits, hfirst, -⟩ := exists_digitChars n.natAbs
      rw [hdigits, ofChars?]
      rintro after heq
      cases heq
      exact absurd hfirst (by decide)
    rw [hunsigned, unsigned?_digitChars]
    simp [ofInt, hnegative]

/-- The plain spelling of an integer is its only one. -/
theorem toInt?_eq_some_iff {x : Numeral} {n : Int} : x.toInt? = some n ↔ x = ofInt n := by
  constructor
  · intro h
    rw [toInt?] at h
    split at h
    · rename_i hplain
      obtain ⟨hplaces, hexponent, hzero⟩ := hplain
      obtain ⟨negative, whole, places, exponent⟩ := x
      obtain rfl : places = [] := hplaces
      obtain rfl : exponent = none := hexponent
      cases negative with
      | false =>
        cases h
        simp [ofInt]
      | true =>
        have hpos : whole ≠ 0 := fun hwhole => hzero ⟨rfl, hwhole⟩
        cases h
        simp [ofInt, Nat.pos_of_ne_zero hpos]
    · cases h
  · rintro rfl
    exact toInt?_ofInt n

end KeyTransparency.Numeral
