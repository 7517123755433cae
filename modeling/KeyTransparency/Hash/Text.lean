import KeyTransparency.Hash
import KeyTransparency.Text.Base64
import KeyTransparency.Tree.Error

/-!
# The text of a hash

A hash is written in base64 with its padding, and only what is written so is read as a hash.
-/

namespace KeyTransparency.Hash

/-- The text of a hash. -/
def toText (hash : Hash) : String := String.ofList (Text.Base64.encode hash.bytes)

/-- The hash that a text writes. -/
def parse (text : String) : Except TreeError Hash :=
  match Text.Base64.decode? .required text.toList with
  | none => .error .invalidBase64
  | some bytes =>
    match Octets.ofBytes? 32 bytes with
    | none => .error (.invalidInput (.hashLength bytes.length))
    | some octets => .ok ⟨octets⟩

end KeyTransparency.Hash
