import KeyTransparency.Digest.Sha256

/-!
# Hashes of the log

A hash names a log entry, a node of a tree or a whole tree.  Every hash is a SHA-256 digest, and the
first byte of what is hashed says which kind of thing it names, so that no entry can pass for a
node.
-/

namespace KeyTransparency

/-- A SHA-256 digest. -/
structure Hash extends Octets 32
deriving DecidableEq

namespace Hash

/-- The hash of a byte string. -/
def ofMessage (message : Bytes) : Hash := ⟨Digest.Sha256.digest message⟩

theorem eq_of_bytes_eq {a b : Hash} (h : a.bytes = b.bytes) : a = b := by
  cases a
  cases b
  exact congrArg Hash.mk (Octets.eq_of_bytes_eq h)

end Hash

/-- What is hashed for a log entry: a zero byte and the entry. -/
def recordMessage (data : Bytes) : Bytes := 0x00 :: data

/-- What is hashed for an interior node of the log's tree: a one byte and the hashes of its
halves. -/
def nodeMessage (left right : Hash) : Bytes := 0x01 :: (left.bytes ++ right.bytes)

/-- The leaf hash of a log entry. -/
def recordHash (data : Bytes) : Hash := Hash.ofMessage (recordMessage data)

/-- The hash of an interior node of the log's tree. -/
def nodeHash (left right : Hash) : Hash := Hash.ofMessage (nodeMessage left right)

/-- The hash of a tree without entries. -/
def emptyTreeHash : Hash := Hash.ofMessage []

end KeyTransparency
