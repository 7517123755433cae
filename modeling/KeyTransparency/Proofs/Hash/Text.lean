import KeyTransparency.Hash.Text
import KeyTransparency.Proofs.Text.Base64

/-!
# A hash has one text

The digits of thirty-two bytes are forty-three, and the last of them leaves two bits unused.  So the
text of a hash has forty-four characters, of which the last two are of few kinds.  The texts of this
form are the only ones that are read as a hash, and each of them is the one that is written for what
is read of it.
-/

namespace KeyTransparency

namespace Text.Base64

/-! ## The alphabet -/

/-- The characters that stand for the digits, from zero on. -/
def alphabet : List Char :=
  "ABCDEFGHIJKLMNOPQRSTUVWXYZabcdefghijklmnopqrstuvwxyz0123456789+/".toList

/-- The characters that stand for a digit whose two lowest bits are zero. -/
def quarterAlphabet : List Char := "AEIMQUYcgkosw048".toList

theorem alphabet_eq : alphabet = (List.range 64).map digitChar := by decide

theorem quarterAlphabet_eq : quarterAlphabet = (List.range 16).map fun n => digitChar (4 * n) := by
  decide

theorem mem_alphabet_iff {c : Char} : c ∈ alphabet ↔ ∃ n < 64, digitChar n = c := by
  simp only [alphabet_eq, List.mem_map, List.mem_range]

theorem mem_quarterAlphabet_iff {c : Char} :
    c ∈ quarterAlphabet ↔ ∃ n < 16, digitChar (4 * n) = c := by
  simp only [quarterAlphabet_eq, List.mem_map, List.mem_range]

/-! ## The last digit -/

/-- A last group of two bytes has three digits, of which the last leaves two bits unused. -/
theorem exists_digits_eq_concat {bytes : Bytes} (h : bytes.length % 3 = 2) :
    ∃ before last, digits bytes = before ++ [4 * last] ∧ last < 16 := by
  fun_induction digits bytes with
  | case1 => cases h
  | case2 a => cases h
  | case3 a b =>
    have hb := b.toNat_lt
    refine ⟨[a.toNat / 4, a.toNat % 4 * 16 + b.toNat / 16], b.toNat % 16, ?_, by omega⟩
    rw [Nat.mul_comm (b.toNat % 16)]
    rfl
  | case4 a b c rest ih =>
    rw [List.length_cons, List.length_cons, List.length_cons] at h
    obtain ⟨before, last, hdigits, hlast⟩ := ih (by omega)
    refine ⟨a.toNat / 4 :: (a.toNat % 4 * 16 + b.toNat / 16) :: (b.toNat % 16 * 4 + c.toNat / 64)
      :: c.toNat % 64 :: before, last, ?_, hlast⟩
    rw [hdigits]
    rfl

/-- Digits whose last group has three are those of a byte string, if two bits are left unused. -/
theorem exists_ofDigits?_concat {before : List Nat} (h : before.length % 4 = 2) (last : Nat) :
    ∃ bytes, ofDigits? (before ++ [4 * last]) = some bytes := by
  match before, h with
  | [w, x], _ =>
    rw [List.cons_append, List.cons_append, List.nil_append, ofDigits?,
      if_pos (Nat.mul_mod_right 4 last)]
    exact ⟨_, rfl⟩
  | w :: x :: y :: z :: rest, h =>
    rw [List.length_cons, List.length_cons, List.length_cons, List.length_cons] at h
    obtain ⟨bytes, hbytes⟩ := @exists_ofDigits?_concat rest (by omega) last
    simp only [List.cons_append]
    rw [ofDigits?, hbytes]
    exact ⟨_, rfl⟩
termination_by before.length

/-- A text with all its padding is the one that is written for what it is read as. -/
theorem decode?_required_eq_some_iff {text : List Char} {bytes : Bytes} :
    decode? .required text = some bytes ↔ text = encode bytes := by
  constructor
  · intro h
    obtain ⟨count, hcount, rfl⟩ := decode?_eq_some_iff.mp h
    have hfull : count = paddingLength (digits bytes).length := eq_of_beq hcount
    rw [encode_eq_written, hfull]
  · rintro rfl
    exact decode?_encode .required bytes

/-! ## Texts of thirty-two bytes -/

/-- Forty-two digits, a digit whose two lowest bits are zero, and one padding character. -/
def WritesHash (text : List Char) : Prop :=
  ∃ before last, text = before ++ [last, '='] ∧ before.length = 42 ∧
    (∀ c ∈ before, c ∈ alphabet) ∧ last ∈ quarterAlphabet

theorem length_digits_eq_iff {bytes : Bytes} :
    (digits bytes).length = 43 ↔ bytes.length = 32 := by
  rw [length_digits]
  omega

theorem writesHash_encode {bytes : Bytes} (h : bytes.length = 32) : WritesHash (encode bytes) := by
  obtain ⟨before, last, hdigits, hlast⟩ := exists_digits_eq_concat (show bytes.length % 3 = 2 by
    rw [h])
  have hcount : (digits bytes).length = 43 := length_digits_eq_iff.mpr h
  refine ⟨before.map digitChar, digitChar (4 * last), ?_, ?_, ?_, ?_⟩
  · rw [encode_eq_written, hcount, written, hdigits, List.map_append, List.append_assoc]
    rfl
  · rw [hdigits, List.length_append, List.length_singleton] at hcount
    rw [List.length_map]
    omega
  · intro c hc
    obtain ⟨n, hn, rfl⟩ := List.mem_map.mp hc
    have hmem : n ∈ digits bytes := hdigits ▸ List.mem_append_left _ hn
    exact mem_alphabet_iff.mpr ⟨n, lt_of_mem_digits hmem, rfl⟩
  · exact mem_quarterAlphabet_iff.mpr ⟨last, hlast, rfl⟩

/-- Characters of the alphabet are written for digits. -/
theorem exists_map_digitChar {chars : List Char} (h : ∀ c ∈ chars, c ∈ alphabet) :
    ∃ numbers : List Nat, chars = numbers.map digitChar ∧ ∀ n ∈ numbers, n < 64 := by
  induction chars with
  | nil => exact ⟨[], rfl, by simp⟩
  | cons c chars ih =>
    obtain ⟨hfirst, hrest⟩ := List.forall_mem_cons.mp h
    obtain ⟨n, hn, rfl⟩ := mem_alphabet_iff.mp hfirst
    obtain ⟨numbers, rfl, hnumbers⟩ := ih hrest
    exact ⟨n :: numbers, rfl, List.forall_mem_cons.mpr ⟨hn, hnumbers⟩⟩

theorem exists_encode_of_writesHash {text : List Char} (h : WritesHash text) :
    ∃ bytes : Bytes, bytes.length = 32 ∧ text = encode bytes := by
  obtain ⟨before, last, rfl, hlength, hbefore, hlast⟩ := h
  obtain ⟨numbers, rfl, hnumbers⟩ := exists_map_digitChar hbefore
  obtain ⟨n, hn, rfl⟩ := mem_quarterAlphabet_iff.mp hlast
  rw [List.length_map] at hlength
  obtain ⟨bytes, hbytes⟩ := exists_ofDigits?_concat (show numbers.length % 4 = 2 by rw [hlength]) n
  have hdigits : numbers ++ [4 * n] = digits bytes := by
    apply eq_digits_of_ofDigits? hbytes
    intro m hm
    rcases List.mem_append.mp hm with hmem | hmem
    · exact hnumbers m hmem
    · obtain rfl := List.mem_singleton.mp hmem
      omega
  have hcount : (digits bytes).length = 43 := by
    rw [← hdigits, List.length_append, List.length_singleton, hlength]
  refine ⟨bytes, length_digits_eq_iff.mp hcount, ?_⟩
  rw [encode_eq_written, hcount, written, ← hdigits, List.map_append, List.append_assoc]
  rfl

end Text.Base64

namespace Hash

open Text.Base64

/-! ## Reading a hash -/

variable {text : String}

theorem toList_toText (hash : Hash) : hash.toText.toList = encode hash.bytes :=
  String.toList_ofList

/-- A text that is written for no byte string is refused for its form. -/
theorem parse_of_toList_ne (h : ∀ bytes, text.toList ≠ encode bytes) :
    parse text = .error .invalidBase64 := by
  have hnone : decode? .required text.toList = none := by
    apply Option.eq_none_iff_forall_ne_some.mpr
    intro bytes hbytes
    exact h bytes (decode?_required_eq_some_iff.mp hbytes)
  rw [parse, hnone]

/-- A text that is written for another number of bytes is refused for this number. -/
theorem parse_of_length_ne {bytes : Bytes} (h : text.toList = encode bytes)
    (hlength : bytes.length ≠ 32) :
    parse text = .error (.invalidInput (.hashLength bytes.length)) := by
  have hbytes : Octets.ofBytes? 32 bytes = none := dif_neg hlength
  simp only [parse, decode?_required_eq_some_iff.mpr h, hbytes]

theorem parse_of_length_eq {bytes : Bytes} (h : text.toList = encode bytes)
    (hlength : bytes.length = 32) : parse text = .ok ⟨bytes, hlength⟩ := by
  have hbytes : Octets.ofBytes? 32 bytes = some ⟨bytes, hlength⟩ := dif_pos hlength
  simp only [parse, decode?_required_eq_some_iff.mpr h, hbytes]

/-- A text is written for no byte string, for one of another length, or for a hash. -/
theorem parse_cases (text : String) :
    ((∀ bytes, text.toList ≠ encode bytes) ∧ parse text = .error .invalidBase64) ∨
      (∃ bytes, text.toList = encode bytes ∧ bytes.length ≠ 32 ∧
        parse text = .error (.invalidInput (.hashLength bytes.length))) ∨
      ∃ hash, text = hash.toText ∧ parse text = .ok hash := by
  by_cases hwritten : ∃ bytes, text.toList = encode bytes
  · obtain ⟨bytes, hbytes⟩ := hwritten
    by_cases hlength : bytes.length = 32
    · refine .inr (.inr ⟨⟨bytes, hlength⟩, ?_, parse_of_length_eq hbytes hlength⟩)
      rw [toText, ← hbytes, String.ofList_toList]
    · exact .inr (.inl ⟨bytes, hbytes, hlength, parse_of_length_ne hbytes hlength⟩)
  · have hnone := not_exists.mp hwritten
    exact .inl ⟨hnone, parse_of_toList_ne hnone⟩

theorem parse_eq_ok_iff {hash : Hash} : parse text = .ok hash ↔ text = hash.toText := by
  constructor
  · intro h
    obtain ⟨-, hrefused⟩ | ⟨bytes, -, -, hrefused⟩ | ⟨other, htext, hread⟩ := parse_cases text
    · cases h.symm.trans hrefused
    · cases h.symm.trans hrefused
    · cases h.symm.trans hread
      exact htext
  · rintro rfl
    exact parse_of_length_eq (toList_toText hash) hash.length_bytes

theorem parse_eq_error_iff {error : TreeError} :
    parse text = .error error ↔
      ((∀ bytes, text.toList ≠ encode bytes) ∧ error = .invalidBase64) ∨
        ∃ bytes, text.toList = encode bytes ∧ bytes.length ≠ 32 ∧
          error = .invalidInput (.hashLength bytes.length) := by
  constructor
  · intro h
    obtain ⟨hnone, hrefused⟩ | ⟨bytes, hbytes, hlength, hrefused⟩ | ⟨hash, -, hread⟩ :=
      parse_cases text
    · cases h.symm.trans hrefused
      exact .inl ⟨hnone, rfl⟩
    · cases h.symm.trans hrefused
      exact .inr ⟨bytes, hbytes, hlength, rfl⟩
    · cases h.symm.trans hread
  · rintro (⟨hnone, rfl⟩ | ⟨bytes, hbytes, hlength, rfl⟩)
    · exact parse_of_toList_ne hnone
    · exact parse_of_length_ne hbytes hlength

theorem exists_parse_eq_ok_iff : (∃ hash, parse text = .ok hash) ↔ WritesHash text.toList := by
  constructor
  · rintro ⟨hash, hread⟩
    rw [parse_eq_ok_iff.mp hread, toList_toText]
    exact writesHash_encode hash.length_bytes
  · intro h
    obtain ⟨bytes, hlength, hbytes⟩ := exists_encode_of_writesHash h
    exact ⟨_, parse_of_length_eq hbytes hlength⟩

/-- A text is read as a hash exactly if it is the one written for this hash, so that every hash has
one text.  These texts are the ones with forty-two digits, a digit that leaves its two lowest bits
zero and one padding character; any other text is refused, for its form if it is no base64 with all
its padding, and for the number of its bytes if it is.  On all byte strings writing and reading
undo each other. -/
theorem text_canonical :
    (∀ (text : String) (hash : Hash), parse text = .ok hash ↔ text = hash.toText) ∧
      (∀ hash : Hash, ∃! text, parse text = .ok hash) ∧
      (∀ text : String, (∃ hash, parse text = .ok hash) ↔ WritesHash text.toList) ∧
      (∀ (text : String) (error : TreeError), parse text = .error error ↔
        ((∀ bytes, text.toList ≠ encode bytes) ∧ error = .invalidBase64) ∨
          ∃ bytes, text.toList = encode bytes ∧ bytes.length ≠ 32 ∧
            error = .invalidInput (.hashLength bytes.length)) ∧
      ∀ (text : List Char) (bytes : Bytes),
        decode? .required text = some bytes ↔ text = encode bytes := by
  refine ⟨fun _ _ => parse_eq_ok_iff, ?_, fun _ => exists_parse_eq_ok_iff,
    fun _ _ => parse_eq_error_iff, fun _ _ => decode?_required_eq_some_iff⟩
  intro hash
  refine ⟨hash.toText, parse_eq_ok_iff.mpr rfl, ?_⟩
  intro text htext
  exact parse_eq_ok_iff.mp htext

/-- A last digit that does not leave its lowest bits zero gives no other text of the hash of
zeros. -/
example : parse "AAAAAAAAAAAAAAAAAAAAAAAAAAAAAAAAAAAAAAAAAAB=" = .error .invalidBase64 := by
  rfl

end Hash

end KeyTransparency
