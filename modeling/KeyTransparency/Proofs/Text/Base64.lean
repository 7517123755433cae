import KeyTransparency.Proofs.Success
import KeyTransparency.Text.Base64
import Mathlib.Data.Option.Basic

/-!
# Bytes are read back from base64

The digits of a byte string determine it, the characters of digits determine them, and the padding
is all there.  So a byte string is read back from its text by every reader.
-/

namespace KeyTransparency.Text.Base64

/-! ## Digits -/

theorem digit?_digitChar : ∀ n < 64, digit? (digitChar n) = some n := by
  decide

theorem digitChar_ne_padding : ∀ n < 64, (digitChar n != '=') = true := by
  decide

theorem lt_of_mem_digits {bytes : Bytes} {n : Nat} (h : n ∈ digits bytes) : n < 64 := by
  fun_induction digits bytes with
  | case1 => cases h
  | case2 a =>
    have ha := a.toNat_lt
    simp only [List.mem_cons, List.not_mem_nil, or_false] at h
    omega
  | case3 a b =>
    have ha := a.toNat_lt
    have hb := b.toNat_lt
    simp only [List.mem_cons, List.not_mem_nil, or_false] at h
    omega
  | case4 a b c rest ih =>
    have ha := a.toNat_lt
    have hb := b.toNat_lt
    have hc := c.toNat_lt
    simp only [List.mem_cons] at h
    rcases h with h | h | h | h | h
    · omega
    · omega
    · omega
    · omega
    · exact ih h

/-- A byte is put together from the parts that digits take of it. -/
theorem ofNat_parts {a : UInt8} {n : Nat} (h : n = a.toNat) : UInt8.ofNat n = a := by
  rw [h, UInt8.ofNat_toNat]

theorem toNat_part {n : Nat} (h : n < 256) : (UInt8.ofNat n).toNat = n :=
  UInt8.toNat_ofNat_of_lt' h

/-- A byte string is read back from its digits. -/
theorem ofDigits?_digits (bytes : Bytes) : ofDigits? (digits bytes) = some bytes := by
  fun_induction digits bytes with
  | case1 => rfl
  | case2 a =>
    have ha := a.toNat_lt
    have hfirst : 4 * (a.toNat / 4) + a.toNat % 4 * 16 / 16 = a.toNat := by omega
    rw [ofDigits?, if_pos (by omega), ofNat_parts hfirst]
  | case3 a b =>
    have hb := b.toNat_lt
    have hfirst : 4 * (a.toNat / 4) + (a.toNat % 4 * 16 + b.toNat / 16) / 16 = a.toNat := by omega
    have hsecond : (a.toNat % 4 * 16 + b.toNat / 16) % 16 * 16 + b.toNat % 16 * 4 / 4 =
        b.toNat := by omega
    rw [ofDigits?, if_pos (by omega), ofNat_parts hfirst, ofNat_parts hsecond]
  | case4 a b c rest ih =>
    have hb := b.toNat_lt
    have hc := c.toNat_lt
    have hfirst : 4 * (a.toNat / 4) + (a.toNat % 4 * 16 + b.toNat / 16) / 16 = a.toNat := by omega
    have hsecond : (a.toNat % 4 * 16 + b.toNat / 16) % 16 * 16 +
        (b.toNat % 16 * 4 + c.toNat / 64) / 4 = b.toNat := by omega
    have hthird : (b.toNat % 16 * 4 + c.toNat / 64) % 4 * 64 + c.toNat % 64 = c.toNat := by omega
    rw [ofDigits?, ih, ofNat_parts hfirst, ofNat_parts hsecond, ofNat_parts hthird]
    rfl

/-- A character that stands for a digit is the one that the digit is written as. -/
theorem eq_digitChar {c : Char} {n : Nat} (h : digit? c = some n) : c = digitChar n ∧ n < 64 := by
  rw [digit?] at h
  split at h
  · cases h
    refine ⟨?_, by omega⟩
    rw [digitChar, if_pos (by omega), Nat.add_sub_of_le (by omega), Char.ofNat_toNat]
  split at h
  · cases h
    refine ⟨?_, by omega⟩
    rw [digitChar, if_neg (by omega), if_pos (by omega), Nat.add_sub_cancel,
      Nat.add_sub_of_le (by omega), Char.ofNat_toNat]
  split at h
  · cases h
    refine ⟨?_, by omega⟩
    rw [digitChar, if_neg (by omega), if_neg (by omega), if_pos (by omega), Nat.add_sub_cancel,
      Nat.add_sub_of_le (by omega), Char.ofNat_toNat]
  split at h
  · cases h
    exact ⟨‹c = '+'›, by decide⟩
  split at h
  · cases h
    exact ⟨‹c = '/'›, by decide⟩
  · cases h

/-- Digits of a byte string are its only ones. -/
theorem eq_digits_of_ofDigits? {written : List Nat} {bytes : Bytes}
    (h : ofDigits? written = some bytes) (hlt : ∀ n ∈ written, n < 64) :
    written = digits bytes := by
  fun_induction ofDigits? written generalizing bytes with
  | case1 =>
    cases h
    rfl
  | case2 => cases h
  | case3 w x hunused =>
    cases h
    have hw := hlt w (by simp)
    have hx := hlt x (by simp)
    rw [digits, toNat_part (by omega)]
    simp only [List.cons.injEq, and_true]
    omega
  | case4 => cases h
  | case5 w x y hunused =>
    cases h
    have hw := hlt w (by simp)
    have hx := hlt x (by simp)
    have hy := hlt y (by simp)
    rw [digits, toNat_part (by omega), toNat_part (by omega)]
    simp only [List.cons.injEq, and_true]
    omega
  | case6 => cases h
  | case7 w x y z rest ih =>
    obtain ⟨later, hlater, rfl⟩ := Option.map_eq_some_iff.mp h
    have hw := hlt w (by simp)
    have hx := hlt x (by simp)
    have hy := hlt y (by simp)
    have hz := hlt z (by simp)
    have hrest := ih hlater fun n hn => hlt n (by simp [hn])
    rw [digits, toNat_part (by omega), toNat_part (by omega),
      toNat_part (by omega), ← hrest]
    simp only [List.cons.injEq, and_true]
    omega

theorem length_digits (bytes : Bytes) : (digits bytes).length = (4 * bytes.length + 2) / 3 := by
  fun_induction digits bytes with
  | case1 => rfl
  | case2 a => simp
  | case3 a b => simp
  | case4 a b c rest ih =>
    simp only [List.length_cons, ih]
    omega

/-! ## Texts -/

theorem Padding.admits_self (padding : Padding) (full : Nat) : padding.admits full full := by
  cases padding <;> simp [admits]

/-- The text of a byte string with some padding characters. -/
def written (bytes : Bytes) (count : Nat) : List Char :=
  (digits bytes).map digitChar ++ List.replicate count '='

theorem encode_eq_written (bytes : Bytes) :
    encode bytes = written bytes (paddingLength (digits bytes).length) := by
  rw [encode, written, List.length_map]

/-- The texts of a byte string are its digits with as much padding as the reader admits. -/
theorem decode?_eq_some_iff {padding : Padding} {text : List Char} {bytes : Bytes} :
    decode? padding text = some bytes ↔
      ∃ count, padding.admits count (paddingLength (digits bytes).length) ∧
        text = written bytes count := by
  simp only [decode?, Option.bind_eq_bind, Option.bind_eq_some_iff, Option.guard_eq_some']
  constructor
  · rintro ⟨-, htail, -, hadmits, body, hbody, hbytes⟩
    obtain ⟨hchars, hlt⟩ := eq_map_of_mapM_eq_some (fun _ _ => eq_digitChar) hbody
    obtain rfl := eq_digits_of_ofDigits? hbytes hlt
    have hpadding : text.dropWhile (· != '=') =
        List.replicate (text.dropWhile (· != '=')).length '=' :=
      List.eq_replicate_iff.mpr ⟨rfl, fun c hc => eq_of_beq (List.all_eq_true.mp htail c hc)⟩
    rw [hchars, List.length_map] at hadmits
    refine ⟨_, hadmits, ?_⟩
    rw [written, ← hchars, ← hpadding, List.takeWhile_append_dropWhile]
  · rintro ⟨count, hadmits, rfl⟩
    have hdigits : ∀ c ∈ (digits bytes).map digitChar, (c != '=') = true := by
      intro c hc
      obtain ⟨n, hn, rfl⟩ := List.mem_map.mp hc
      exact digitChar_ne_padding n (lt_of_mem_digits hn)
    have hbody : (written bytes count).takeWhile (· != '=') = (digits bytes).map digitChar := by
      rw [written, List.takeWhile_append_of_pos hdigits]
      cases count <;> simp [List.replicate_succ]
    have htail : (written bytes count).dropWhile (· != '=') = List.replicate count '=' := by
      rw [written, List.dropWhile_append_of_pos hdigits]
      cases count <;> simp [List.replicate_succ]
    rw [hbody, htail, List.length_replicate, List.length_map]
    refine ⟨(), by simp, (), hadmits, digits bytes, ?_, ofDigits?_digits bytes⟩
    exact mapM_map_eq_some fun n hn => digit?_digitChar n (lt_of_mem_digits hn)

/-- A byte string is read back from its text, whatever the reader asks of the padding. -/
theorem decode?_encode (padding : Padding) (bytes : Bytes) :
    decode? padding (encode bytes) = some bytes :=
  decode?_eq_some_iff.mpr ⟨_, padding.admits_self _, encode_eq_written bytes⟩

end KeyTransparency.Text.Base64
