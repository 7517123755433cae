import KeyTransparency.Hash.Text
import KeyTransparency.Identifier
import KeyTransparency.Json.Printer
import KeyTransparency.Json.Reader
import KeyTransparency.Time.Duration

/-!
# Values as JSON

What clients and logs send each other is JSON.  Numbers are plain integers in the range of their
type.  Byte strings are texts in base64, which are written with their padding and read with or
without it; only hashes insist on it.
-/

namespace KeyTransparency

/-- A type whose values are written as JSON. -/
class Wire (α : Type) where
  toJson : α → Json
  /-- The value that is written so, if there is one. -/
  ofJson? : Json → Option α

export Wire (toJson ofJson?)

namespace Wire

variable {α : Type}

/-- The value that a text writes. -/
def ofText? [Wire α] (text : String) : Option α := do ofJson? (← Json.read? text)

/-- The text of a value in the form for people. -/
def prettyText [Wire α] (value : α) : String := (toJson value).pretty

/-- The integer that a value is, if it lies between the bounds. -/
def intWithin? (least greatest : Int) (json : Json) : Option Int :=
  json.int?.filter fun n => decide (least ≤ n ∧ n ≤ greatest)

instance : Wire UInt64 where
  toJson n := .nat n.toNat
  ofJson? json := (intWithin? 0 (UInt64.size - 1) json).map fun n => .ofNat n.toNat

instance : Wire UInt32 where
  toJson n := .nat n.toNat
  ofJson? json := (intWithin? 0 (UInt32.size - 1) json).map fun n => .ofNat n.toNat

instance : Wire Int64 where
  toJson n := .int n.toInt
  ofJson? json := (intWithin? Int64.minValue.toInt Int64.maxValue.toInt json).map .ofInt

/-- A length of time is written in whole seconds. -/
instance : Wire Duration where
  toJson duration := toJson duration.seconds
  ofJson? json := (ofJson? json).map Duration.ofSeconds

instance : Wire String where
  toJson := .text
  ofJson? := Json.text?

/-- A byte string as base64. -/
def bytesToJson (bytes : Bytes) : Json := .text (.ofList (Text.Base64.encode bytes))

/-- The byte string that a text in base64 writes, with or without padding. -/
def bytesOfJson? (json : Json) : Option Bytes := do
  Text.Base64.decode? .optional (← json.text?).toList

instance : Wire Bytes where
  toJson := bytesToJson
  ofJson? := bytesOfJson?

instance {n : Nat} : Wire (Octets n) where
  toJson octets := bytesToJson octets.bytes
  ofJson? json := do Octets.ofBytes? n (← bytesOfJson? json)

instance : Wire Hash where
  toJson hash := .text hash.toText
  ofJson? json := do (Hash.parse (← json.text?)).toOption

instance [Wire α] : Wire (List α) where
  toJson values := .array (values.map toJson)
  ofJson? json := do (← json.items?).mapM ofJson?

instance : Wire CommitmentIndex where
  toJson index := bytesToJson index.bytes
  ofJson? json := (ofJson? json : Option (Octets 32)).map .mk

end Wire

end KeyTransparency
