import KeyTransparency.Json.Numeral
import KeyTransparency.Power

/-!
# Numbers as doubles

Where a reader takes a number as a double, it does so in steps, each of which rounds to the nearest
double, and of two equally near ones to the one with an even mantissa.  The leading digits that fit
a word of 64 bits are taken as a whole number, later digits count only for their places, and the
number is then multiplied by a power of ten or divided by powers of ten.  So the double of a number
need not be the one nearest to it.  A number that a step takes to a power of two beyond the largest
double has none.  Each step is worked out in exact arithmetic before it is rounded.
-/

namespace KeyTransparency

/-- A double of either sign: the mantissa times a power of two. -/
structure Double where
  negative : Bool
  mantissa : Nat
  power : Int

namespace Double

/-- Whether the double is a whole number. -/
def isWhole (x : Double) : Bool :=
  decide (0 ≤ x.power) || x.mantissa % 2 ^ x.power.natAbs == 0

/-- Whether the double is at least a natural number. -/
def atLeast (x : Double) (bound : Nat) : Bool :=
  if x.mantissa = 0 then bound == 0
  else if x.negative then false
  else if 0 ≤ x.power then bound ≤ x.mantissa * 2 ^ x.power.natAbs
  else bound * 2 ^ x.power.natAbs ≤ x.mantissa

/-- A quotient rounded to the nearest natural number, a half to the even neighbour. -/
def roundDiv (numerator denominator : Nat) : Nat :=
  let quotient := numerator / denominator
  let rest := numerator % denominator
  if denominator < 2 * rest ∨ (denominator = 2 * rest ∧ quotient % 2 = 1) then quotient + 1
  else quotient

/-- The whole part of the binary logarithm of a positive quotient.  For zero it is a negative
number. -/
def log2Div (numerator denominator : Nat) : Int :=
  let guess : Int := (numerator.log2 : Int) - denominator.log2
  let reached :=
    if 0 ≤ guess then denominator * 2 ^ guess.natAbs ≤ numerator
    else denominator ≤ numerator * 2 ^ guess.natAbs
  if reached then guess else guess - 1

/-- The power of two that all doubles lie below. -/
def greatestPower : Nat := 1024

/-- The double nearest to a quotient, unless it is out of range.  Mantissas have at most 53 bits,
and the power of two is at least -1074. -/
def ofQuotient? (negative : Bool) (numerator denominator : Nat) : Option Double :=
  let power : Int := max (log2Div numerator denominator - 52) (-1074)
  let mantissa :=
    if 0 ≤ power then roundDiv numerator (denominator * 2 ^ power.natAbs)
    else roundDiv (numerator * 2 ^ power.natAbs) denominator
  if 0 ≤ power ∧ 2 ^ greatestPower ≤ mantissa * 2 ^ power.natAbs then none
  else some ⟨negative, mantissa, power⟩

/-- The numerator of the magnitude of a double. -/
def numerator (x : Double) : Nat := x.mantissa * 2 ^ x.power.toNat

/-- The denominator of the magnitude of a double. -/
def denominator (x : Double) : Nat := 2 ^ (-x.power).toNat

/-- The double nearest to a product, unless it is out of range. -/
def mul? (x y : Double) : Option Double :=
  ofQuotient? (x.negative != y.negative) (x.numerator * y.numerator) (x.denominator * y.denominator)

/-- The double nearest to a ratio, unless it is out of range.  The second double is not zero. -/
def div? (x y : Double) : Option Double :=
  ofQuotient? (x.negative != y.negative) (x.numerator * y.denominator) (x.denominator * y.numerator)

/-- The double nearest to a power of ten, unless it is out of range. -/
def tenPower? (exponent : Nat) : Option Double := ofQuotient? false (10 ^ exponent) 1

/-- The exponent of the greatest power of ten in range. -/
def greatestExponent : Nat := 308

/-- A double multiplied by a power of ten, in one step. -/
def scaleUp? (x : Double) (exponent : Nat) : Option Double :=
  if exponent ≤ greatestExponent then do x.mul? (← tenPower? exponent)
  else if x.mantissa = 0 then some x
  else none

/-- A double divided by a power of ten, in as many steps as its divisors need to be in range. -/
def scaleDown? (x : Double) (exponent : Nat) : Option Double :=
  if exponent ≤ greatestExponent then do x.div? (← tenPower? exponent)
  else if x.mantissa = 0 then some x
  else do
    let y ← x.div? (← tenPower? greatestExponent)
    y.scaleDown? (exponent - greatestExponent)
termination_by exponent
decreasing_by
  unfold greatestExponent at *
  omega

end Double

namespace Numeral

/-- Takes digits into a number as long as it fits a word of 64 bits.  The digits that are left are
returned with it. -/
def takeDigits : (value : Nat) → List Nat → Nat × List Nat
  | value, [] => (value, [])
  | value, digit :: rest =>
    if 10 * value + digit < UInt64.size then takeDigits (10 * value + digit) rest
    else (value, digit :: rest)

/-- The leading digits that fit a word of 64 bits as one number, and the power of ten to multiply it
by.  The first digit after the point follows the last one taken before it, also if there were more
that did not fit. -/
def leading (x : Numeral) : Nat × Int :=
  let (whole, beyond) := takeDigits 0 ((digitChars x.whole).map digitValue)
  let (coefficient, dropped) := takeDigits whole x.places
  (coefficient, x.exponent.getD 0 + beyond.length + dropped.length - x.places.length)

/-- The double that a number is taken as, unless a step on the way is out of range. -/
def toDouble? (x : Numeral) : Option Double := do
  let (coefficient, scale) := x.leading
  let start ← Double.ofQuotient? x.negative coefficient 1
  if 0 ≤ scale then start.scaleUp? scale.natAbs else start.scaleDown? scale.natAbs

end Numeral

end KeyTransparency
