import KeyTransparency.Octets

/-!
# Base64

Bytes are written as text in the standard base64 alphabet.  Three bytes make four digits; a last
group of one or two bytes makes two or three digits, and padding fills it up to four characters.

Written text always carries its padding.  A reader either insists on the padding or takes any part
of it, and in both cases refuses digits whose unused bits are not zero, so that the digits of a byte
string are unique.
-/

namespace KeyTransparency.Text.Base64

/-- The character for a digit below 64. -/
def digitChar (n : Nat) : Char :=
  if n < 26 then Char.ofNat (65 + n)
  else if n < 52 then Char.ofNat (97 + (n - 26))
  else if n < 62 then Char.ofNat (48 + (n - 52))
  else if n = 62 then '+' else '/'

/-- The digit that a character stands for. -/
def digit? (c : Char) : Option Nat :=
  if 65 ≤ c.toNat ∧ c.toNat ≤ 90 then some (c.toNat - 65)
  else if 97 ≤ c.toNat ∧ c.toNat ≤ 122 then some (c.toNat - 97 + 26)
  else if 48 ≤ c.toNat ∧ c.toNat ≤ 57 then some (c.toNat - 48 + 52)
  else if c = '+' then some 62
  else if c = '/' then some 63
  else none

/-- The digits of a byte string, without padding. -/
def digits : Bytes → List Nat
  | [] => []
  | [a] => [a.toNat / 4, a.toNat % 4 * 16]
  | [a, b] => [a.toNat / 4, a.toNat % 4 * 16 + b.toNat / 16, b.toNat % 16 * 4]
  | a :: b :: c :: rest =>
    a.toNat / 4 :: (a.toNat % 4 * 16 + b.toNat / 16) :: (b.toNat % 16 * 4 + c.toNat / 64)
      :: c.toNat % 64 :: digits rest

/-- The byte string with the given digits.  A last group of two or three digits must leave its
unused bits zero, and one digit alone writes nothing. -/
def ofDigits? : List Nat → Option Bytes
  | [] => some []
  | [_] => none
  | [w, x] => if x % 16 = 0 then some [UInt8.ofNat (4 * w + x / 16)] else none
  | [w, x, y] =>
    if y % 4 = 0 then
      some [UInt8.ofNat (4 * w + x / 16), UInt8.ofNat (x % 16 * 16 + y / 4)]
    else none
  | w :: x :: y :: z :: rest =>
    (ofDigits? rest).map fun bytes =>
      UInt8.ofNat (4 * w + x / 16) :: UInt8.ofNat (x % 16 * 16 + y / 4)
        :: UInt8.ofNat (y % 4 * 64 + z) :: bytes

/-- The number of padding characters that fill up a last group, given the number of digits. -/
def paddingLength (digitCount : Nat) : Nat := (4 - digitCount % 4) % 4

/-- The text of a byte string, with its padding. -/
def encode (bytes : Bytes) : List Char :=
  let written := (digits bytes).map digitChar
  written ++ List.replicate (paddingLength written.length) '='

/-- What a reader asks of the padding. -/
inductive Padding where
  /-- All of it must be there. -/
  | required
  /-- Any part of it may be missing. -/
  | optional
deriving DecidableEq

/-- Whether a reader takes `count` padding characters where `full` fill up the last group. -/
def Padding.admits : Padding → (count full : Nat) → Bool
  | .required, count, full => count == full
  | .optional, count, full => count ≤ full

/-- The byte string that a text writes. -/
def decode? (padding : Padding) (text : List Char) : Option Bytes := do
  let body := text.takeWhile (· != '=')
  let tail := text.dropWhile (· != '=')
  guard (tail.all (· == '='))
  guard (padding.admits tail.length (paddingLength body.length))
  ofDigits? (← body.mapM digit?)

end KeyTransparency.Text.Base64
