import KeyTransparency.Config
import KeyTransparency.Error

/-!
# What is signed for a tree head

Who signs a tree head signs its size, time and root together with the log's name and all of its
keys, so that a signature is good for one log, one set of keys and one signer only.
-/

namespace KeyTransparency

variable {G : PointGroup}

/-- The text that begins everything that is signed for a tree head. -/
def treeHeadDomain : Bytes := utf8 "kt-tree-head-v1"

/-- The greatest length to which a log's name is signed. -/
def maxSignedName : Nat := 65535

/-- The byte that tells the signers apart. -/
def Signer.tag : Signer → UInt8
  | service => 0
  | auditor => 1

/-- A log's name as it is signed: its length and its bytes, cut off at the greatest length. -/
def signedName (logId : String) : Bytes :=
  let name := (utf8 logId).take maxSignedName
  bigEndian 2 name.length ++ name

/-- An auditor's key as it is signed: whether there is one, and its bytes. -/
def signedAuditorKey : Option (Signature.PublicKey G) → Bytes
  | some key => 1 :: key.bytes.bytes
  | none => [0]

/-- What is signed for a tree head of a log. -/
def treeHeadMessage (config : Config G) (signer : Signer) (size : UInt64) (timestamp : Int64)
    (root : Hash) : Bytes :=
  treeHeadDomain ++ signedName config.logId ++ [signer.tag] ++ config.serviceKey.bytes.bytes
    ++ config.vrfKey.bytes.bytes ++ signedAuditorKey config.auditorKey
    ++ bigEndian 8 size.toNat ++ bigEndian 8 timestamp.toUInt64.toNat ++ root.bytes

end KeyTransparency
