import KeyTransparency.Power

/-!
# Byte strings

Everything that is hashed, signed or sent is a string of bytes.  This module holds byte strings of
any length and of a fixed length, and the two ways in which a number is written as bytes.  The main
statements say how long a written number is, which number is read back, and that a fixed-length
string is its bytes.
-/

namespace KeyTransparency

/-- A string of bytes of any length. -/
abbrev Bytes := List UInt8

/-- A string of exactly `n` bytes. -/
structure Octets (n : Nat) where
  bytes : Bytes
  length_bytes : bytes.length = n
deriving DecidableEq

namespace Octets

/-- The string itself, if it has the wanted length. -/
def ofBytes? (n : Nat) (bytes : Bytes) : Option (Octets n) :=
  if h : bytes.length = n then some ⟨bytes, h⟩ else none

theorem eq_of_bytes_eq {n : Nat} {a b : Octets n} (h : a.bytes = b.bytes) : a = b := by
  cases a
  cases b
  cases h
  rfl

@[simp]
theorem ofBytes?_bytes {n : Nat} (a : Octets n) : ofBytes? n a.bytes = some a := by
  simp [ofBytes?, a.length_bytes]

theorem ofBytes?_eq_some_iff {n : Nat} {bytes : Bytes} {a : Octets n} :
    ofBytes? n bytes = some a ↔ a.bytes = bytes := by
  constructor
  · intro h
    unfold ofBytes? at h
    split at h
    · cases h
      rfl
    · cases h
  · rintro rfl
    exact ofBytes?_bytes a

/-- The string in which one byte stands `n` times. -/
def replicate (n : Nat) (byte : UInt8) : Octets n := ⟨List.replicate n byte, List.length_replicate⟩

theorem half_le : 32 ≤ 64 := by decide

/-- The first `k` bytes of a longer string. -/
def take {n : Nat} (a : Octets n) (k : Nat) (h : k ≤ n) : Octets k :=
  ⟨a.bytes.take k, by simp [a.length_bytes, h]⟩

/-- The bytes that follow the first `k`. -/
def drop {n : Nat} (a : Octets n) (k : Nat) : Octets (n - k) :=
  ⟨a.bytes.drop k, by simp [a.length_bytes]⟩

end Octets

/-- The bytes of a text in UTF-8. -/
def utf8 (text : String) : Bytes := text.toUTF8.data.toList

/-- The low `width` bytes of a number, most significant first. -/
def bigEndian : (width value : Nat) → Bytes
  | 0, _ => []
  | width + 1, value => UInt8.ofNat (value / 256 ^ width) :: bigEndian width value

/-- The low `width` bytes of a number, least significant first. -/
def littleEndian : (width value : Nat) → Bytes
  | 0, _ => []
  | width + 1, value => UInt8.ofNat value :: littleEndian width (value / 256)

/-- The number whose bytes are given most significant first. -/
def ofBigEndian (bytes : Bytes) : Nat :=
  bytes.foldl (fun value byte => 256 * value + byte.toNat) 0

/-- The number whose bytes are given least significant first. -/
def ofLittleEndian : Bytes → Nat
  | [] => 0
  | byte :: rest => byte.toNat + 256 * ofLittleEndian rest

@[simp]
theorem length_bigEndian (width value : Nat) : (bigEndian width value).length = width := by
  induction width with
  | zero => rfl
  | succ width ih => simp [bigEndian, ih]

@[simp]
theorem length_littleEndian (width value : Nat) : (littleEndian width value).length = width := by
  induction width generalizing value with
  | zero => rfl
  | succ width ih => simp [littleEndian, ih]

theorem ofLittleEndian_littleEndian (width value : Nat) :
    ofLittleEndian (littleEndian width value) = value % 256 ^ width := by
  induction width generalizing value with
  | zero =>
    rw [Nat.pow_zero, Nat.mod_one]
    rfl
  | succ width ih =>
    rw [Nat.pow_succ', Nat.mod_mul, littleEndian, ofLittleEndian, ih, UInt8.toNat_ofNat']

/-- The two lower-case hexadecimal digits of every byte. -/
def hex (bytes : Bytes) : String :=
  let digit (n : Nat) : Char := if n < 10 then Char.ofNat (48 + n) else Char.ofNat (87 + n)
  String.ofList (bytes.flatMap fun byte => [digit (byte.toNat / 16), digit (byte.toNat % 16)])

end KeyTransparency
