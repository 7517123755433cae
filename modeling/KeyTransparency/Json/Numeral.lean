import KeyTransparency.Json.Basic

/-!
# Spelling of numbers

A JSON number is an optional minus sign, a whole part without needless zeros, an optional point with
at least one digit after it, and an optional power of ten.
-/

namespace KeyTransparency.Numeral

/-- The number that a character stands for, if it is a decimal digit. -/
def digitValue (c : Char) : Nat := c.toNat - 48

/-- The number with the given decimal digits, most significant first. -/
def ofDigits (digits : List Char) : Nat :=
  digits.foldl (fun value c => 10 * value + digitValue c) 0

/-- Whether a character can occur in a number. -/
def isNumeralChar (c : Char) : Bool :=
  c.isDigit || c == '-' || c == '+' || c == '.' || c == 'e' || c == 'E'

/-- The digits after a point and what follows them. -/
def places? : List Char → Option (List Nat × List Char)
  | '.' :: rest =>
    if rest.takeWhile Char.isDigit = [] then none
    else some ((rest.takeWhile Char.isDigit).map digitValue, rest.dropWhile Char.isDigit)
  | rest => some ([], rest)

/-- A power of ten without its sign, which takes all characters that are left. -/
def power? (digits : List Char) : Option Nat :=
  if digits ≠ [] ∧ digits.all Char.isDigit then some (ofDigits digits) else none

/-- The power of ten that takes all characters that are left, if any are. -/
def exponent? : List Char → Option (Option Int)
  | [] => some none
  | mark :: '+' :: digits =>
    if mark = 'e' ∨ mark = 'E' then (power? digits).map fun n => some (n : Int) else none
  | mark :: '-' :: digits =>
    if mark = 'e' ∨ mark = 'E' then (power? digits).map fun n => some (-(n : Int)) else none
  | mark :: digits =>
    if mark = 'e' ∨ mark = 'E' then (power? digits).map fun n => some (n : Int) else none

/-- A number without its sign. -/
def unsigned? (negative : Bool) (text : List Char) : Option Numeral := do
  let whole := text.takeWhile Char.isDigit
  guard (whole.length = 1 ∨ (whole ≠ [] ∧ whole.head? ≠ some '0'))
  let (places, rest) ← places? (text.dropWhile Char.isDigit)
  let exponent ← exponent? rest
  return ⟨negative, ofDigits whole, places, exponent⟩

/-- The number that a text spells, if the whole text is one number. -/
def ofChars? : List Char → Option Numeral
  | '-' :: rest => unsigned? true rest
  | rest => unsigned? false rest

/-- The decimal digits of a number. -/
def digitChars (n : Nat) : List Char := Nat.toDigits 10 n

/-- The spelling of a number. -/
def chars (x : Numeral) : List Char :=
  let sign := if x.negative then ['-'] else []
  let places := if x.places = [] then [] else '.' :: x.places.flatMap digitChars
  let exponent := match x.exponent with
    | none => []
    | some e => 'e' :: (if e < 0 then '-' :: digitChars e.natAbs else digitChars e.natAbs)
  sign ++ digitChars x.whole ++ places ++ exponent

end KeyTransparency.Numeral
