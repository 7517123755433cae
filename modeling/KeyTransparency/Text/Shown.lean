import KeyTransparency.Octets
import KeyTransparency.Text.Numbered

/-!
# Values as log records show them

Log records show texts between quotes, with escapes for what would not be visible, and byte strings
as lists of numbers.
-/

namespace KeyTransparency.Text

/-- A character by its number in hexadecimal. -/
def shownNumber (c : Char) : String :=
  "\\u\x7b" ++ String.ofList (Nat.toDigits 16 c.toNat) ++ "\x7d"

/-- A character as it stands in a shown text. -/
def shownChar (c : Char) : String :=
  if c = '"' then "\\\""
  else if c = '\\' then "\\\\"
  else if c.toNat = 0x00 then "\\0"
  else if c.toNat = 0x09 then "\\t"
  else if c.toNat = 0x0a then "\\n"
  else if c.toNat = 0x0d then "\\r"
  else if c.toNat < 0x20 ∨ c.toNat = 0x7f then shownNumber c
  else if 0x80 ≤ c.toNat ∧ isNumbered c = true then shownNumber c
  else String.singleton c

/-- A text between quotes. -/
def shownText (text : String) : String :=
  "\"" ++ String.join (text.toList.map shownChar) ++ "\""

/-- A byte string as a list of numbers. -/
def shownBytes (bytes : Bytes) : String :=
  "[" ++ String.intercalate ", " (bytes.map fun byte => toString byte.toNat) ++ "]"

end KeyTransparency.Text
