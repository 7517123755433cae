import KeyTransparency.Hash

/-!
# Commitments

A log entry does not show the value it holds, only a commitment to it.  Who knows the opening and
the value can recompute the commitment, and what is hashed begins with the position of the entry, so
a commitment cannot be moved to another entry.
-/

namespace KeyTransparency.Commitment

/-- The number of bytes in an opening. -/
def openingSize : Nat := 32

/-- The text that begins everything that is hashed for a commitment. -/
def domain : Bytes := utf8 "kt-commitment-v1"

/-- The greatest length that is written in full; longer values are written with this length. -/
def maxWrittenLength : Nat := UInt32.size - 1

/-- What is hashed for a value at a position. -/
def message (opening : Octets openingSize) (position : UInt64) (value : Bytes) : Bytes :=
  domain ++ bigEndian 8 position.toNat ++ opening.bytes
    ++ bigEndian 4 (min value.length maxWrittenLength) ++ value

/-- The commitment to a value at a position. -/
def commit (opening : Octets openingSize) (position : UInt64) (value : Bytes) : Hash :=
  Hash.ofMessage (message opening position value)

/-- Whether a commitment opens to a value at a position. -/
def opens (commitment : Hash) (opening : Bytes) (position : UInt64) (value : Bytes) : Bool :=
  match Octets.ofBytes? openingSize opening with
  | none => false
  | some opening => commit opening position value == commitment

end KeyTransparency.Commitment
