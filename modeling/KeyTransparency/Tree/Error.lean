/-!
# Errors of the log's tree

A tree operation fails because a proof does not have the shape it must have, because a proof leads
to another root, or because it was asked something that makes no sense.  The type names the cause,
and one function puts it into words.
-/

namespace KeyTransparency

/-- What is wrong with the shape of a proof. -/
inductive ProofFault where
  | auditPathTooLong
  | auditPathTooShort
  | consistencyTooLong
  | consistencyTooShort
  | consistencyLength (oldSize newSize needed given : Nat)
  | batchTooShort
  | batchUnused
deriving DecidableEq

/-- What is wrong with a question. -/
inductive InputFault where
  /-- A leaf lies beyond the tree. -/
  | leafBeyondTree
  /-- An old size is zero or beyond the tree. -/
  | oldSizeBeyondTree
  | emptyTree
  | notStored (index : Nat)
  | readCount (read asked : Nat)
  | leafCount (positions leaves : Nat)
  | hashLength (length : Nat)
deriving DecidableEq

/-- Why a tree operation fails. -/
inductive TreeError where
  | malformedProof (fault : ProofFault)
  | rootMismatch
  | indexesOutOfOrder
  | invalidInput (fault : InputFault)
  | invalidBase64
deriving DecidableEq

/-- The fault in words. -/
def ProofFault.message : ProofFault → String
  | auditPathTooLong => "audit path too long"
  | auditPathTooShort => "audit path too short"
  | consistencyTooLong => "consistency proof too long"
  | consistencyTooShort => "consistency proof too short"
  | consistencyLength oldSize newSize needed given =>
    s!"consistency proof from {oldSize} to {newSize} needs {needed} hashes, got {given}"
  | batchTooShort => "batch proof too short"
  | batchUnused => "batch proof has unused hashes"

/-- The fault in words. -/
def InputFault.message : InputFault → String
  | leafBeyondTree => "n >= t"
  | oldSizeBeyondTree => "1 <= n <= t"
  | emptyTree => "empty tree"
  | notStored index => s!"index {index} not stored"
  | readCount read asked => s!"read_hashes returned {read} hashes for {asked} indexes"
  | leafCount positions leaves => s!"{positions} positions for {leaves} leaves"
  | hashLength length => s!"expected 32 bytes, got {length}"

/-- The error in words. -/
def TreeError.message : TreeError → String
  | malformedProof fault => "malformed proof: " ++ fault.message
  | rootMismatch => "recomputed root does not match"
  | indexesOutOfOrder => "indexes out of order"
  | invalidInput fault => "unmet input condition: " ++ fault.message
  | invalidBase64 => "invalid base64"

end KeyTransparency
