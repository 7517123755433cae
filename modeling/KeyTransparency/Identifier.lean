import KeyTransparency.Octets
import KeyTransparency.Text.Shown

/-!
# Identifiers and their indexes

A log binds values to identifiers.  An identifier is a search key; what the log shows of it is only
a commitment index, which the log's operator derives from the key by a verifiable random function.
The log is sorted by commitment index.
-/

namespace KeyTransparency

/-- The place of an identifier in the sort order of the log. -/
structure CommitmentIndex extends Octets 32
deriving DecidableEq

namespace CommitmentIndex

/-- One index comes before another if its bytes do, the first byte counting most. -/
instance : LT CommitmentIndex := ⟨fun a b => a.bytes < b.bytes⟩

instance (a b : CommitmentIndex) : Decidable (a < b) :=
  inferInstanceAs (Decidable (a.bytes < b.bytes))

/-- Bit `i` of an index, counted from the highest bit of the first byte. -/
def bit (index : CommitmentIndex) (i : Nat) : Bool :=
  (index.bytes.getD (i / 8) 0).toNat.testBit (7 - i % 8)

/-- The index that the output of the random function stands for: its first half. -/
def ofOutput (output : Octets 64) : CommitmentIndex := ⟨output.take 32 Octets.half_le⟩

theorem eq_of_bytes_eq {a b : CommitmentIndex} (h : a.bytes = b.bytes) : a = b := by
  cases a
  cases b
  exact congrArg CommitmentIndex.mk (Octets.eq_of_bytes_eq h)

end CommitmentIndex

/-- What a log binds values to. -/
inductive SearchKey where
  /-- An account. -/
  | aci (account : Octets 16)
  /-- A telephone number. -/
  | e164 (number : String)
  | usernameHash (hash : Octets 32)
  /-- The key that every client watches. -/
  | distinguished
deriving DecidableEq

namespace SearchKey

/-- The bytes from which the commitment index of a key is derived.  Their first byte tells the kinds
of keys apart. -/
def toBytes : SearchKey → Bytes
  | aci account => 'a'.toUInt8 :: account.bytes
  | e164 number => 'n'.toUInt8 :: utf8 number
  | usernameHash hash => 'u'.toUInt8 :: hash.bytes
  | distinguished => utf8 "distinguished"

/-- A key as log records show it. -/
def shown : SearchKey → String
  | aci account => "Aci(" ++ Text.shownBytes account.bytes ++ ")"
  | e164 number => "E164(" ++ Text.shownText number ++ ")"
  | usernameHash hash => "UsernameHash(" ++ Text.shownBytes hash.bytes ++ ")"
  | distinguished => "Distinguished"

end SearchKey

end KeyTransparency
