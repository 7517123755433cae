/-!
# Quoted strings

A JSON string is written between quotes, with escapes for the characters that cannot stand for
themselves.  An escape by number names a unit of sixteen bits, and characters beyond these are named
by a pair of units, a high and a low surrogate.  A string with an unpaired surrogate is well formed
and denotes no text.
-/

namespace KeyTransparency.Json.Quoted

/-- The value of a hexadecimal digit. -/
def hexValue? (c : Char) : Option Nat :=
  if '0' ≤ c ∧ c ≤ '9' then some (c.toNat - 48)
  else if 'a' ≤ c ∧ c ≤ 'f' then some (c.toNat - 87)
  else if 'A' ≤ c ∧ c ≤ 'F' then some (c.toNat - 55)
  else none

/-- The unit named by four hexadecimal digits. -/
def unit? (a b c d : Char) : Option Nat := do
  return (((← hexValue? a) * 16 + (← hexValue? b)) * 16 + (← hexValue? c)) * 16 + (← hexValue? d)

/-- The code of a character that is escaped by a letter or a sign. -/
def escaped? : Char → Option Nat
  | '"' => some 0x22
  | '\\' => some 0x5c
  | '/' => some 0x2f
  | 'b' => some 0x08
  | 'f' => some 0x0c
  | 'n' => some 0x0a
  | 'r' => some 0x0d
  | 't' => some 0x09
  | _ => none

/-- The character codes and units of a string whose opening quote has been read, and what follows
its closing quote.  Those read so far are given last first. -/
def scan : (units : List Nat) → List Char → Option (List Nat × List Char)
  | units, '"' :: rest => some (units.reverse, rest)
  | units, '\\' :: 'u' :: a :: b :: c :: d :: rest =>
    match unit? a b c d with
    | some unit => scan (unit :: units) rest
    | none => none
  | units, '\\' :: c :: rest =>
    match escaped? c with
    | some code => scan (code :: units) rest
    | none => none
  | units, c :: rest => if c.toNat < 0x20 then none else scan (c.toNat :: units) rest
  | _, [] => none

/-- Whether a unit is the first half of a pair. -/
def isHighSurrogate (unit : Nat) : Bool := 0xd800 ≤ unit && unit < 0xdc00

/-- Whether a unit is the second half of a pair. -/
def isLowSurrogate (unit : Nat) : Bool := 0xdc00 ≤ unit && unit < 0xe000

/-- The character named by a pair of surrogates. -/
def pairChar (high low : Nat) : Char :=
  Char.ofNat (0x10000 + (high - 0xd800) * 0x400 + (low - 0xdc00))

/-- The text with the given codes and units, if every surrogate has its partner.  The characters
found so far are given last first. -/
def join? : (found : List Char) → List Nat → Option (List Char)
  | found, [] => some found.reverse
  | found, [unit] =>
    if isHighSurrogate unit || isLowSurrogate unit then none
    else some (Char.ofNat unit :: found).reverse
  | found, unit :: next :: rest =>
    if isHighSurrogate unit then
      if isLowSurrogate next then join? (pairChar unit next :: found) rest else none
    else if isLowSurrogate unit then none
    else join? (Char.ofNat unit :: found) (next :: rest)

/-- The text that a string denotes and what follows the string, whose opening quote has been
read. -/
def read? (text : List Char) : Option (Option String × List Char) :=
  (scan [] text).map fun (units, rest) => ((join? [] units).map String.ofList, rest)

/-- A lower-case hexadecimal digit. -/
def hexDigit (n : Nat) : Char := if n < 10 then Char.ofNat (48 + n) else Char.ofNat (87 + n)

/-- How a character is written inside quotes.  Only the quote, the backslash and the control
characters below the space are escaped, and those without a letter of their own by number. -/
def escape (c : Char) : List Char :=
  if c = '"' then ['\\', '"']
  else if c = '\\' then ['\\', '\\']
  else if c.toNat = 0x08 then ['\\', 'b']
  else if c.toNat = 0x0c then ['\\', 'f']
  else if c.toNat = 0x0a then ['\\', 'n']
  else if c.toNat = 0x0d then ['\\', 'r']
  else if c.toNat = 0x09 then ['\\', 't']
  else if c.toNat < 0x20 then
    ['\\', 'u', '0', '0', hexDigit (c.toNat / 16), hexDigit (c.toNat % 16)]
  else [c]

/-- A text between quotes. -/
def write (text : String) : List Char := '"' :: (text.toList.flatMap escape ++ ['"'])

end KeyTransparency.Json.Quoted
