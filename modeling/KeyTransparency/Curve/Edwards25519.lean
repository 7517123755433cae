import KeyTransparency.Curve.PointGroup

/-!
# The curve edwards25519

The points of the twisted Edwards curve `-x² + y² = 1 + d x² y²` over the integers modulo
`2 ^ 255 - 19`.  Points are kept in extended coordinates, for which one formula without exceptions
adds any two points.  A point is written as the 255 bits of `y` and the lowest bit of `x`.

In a written point `y` may exceed the modulus, and the sign bit may be set where `x` is zero.
-/

namespace KeyTransparency.Edwards25519

/-- The number of bits of a coordinate. -/
def coordinateBits : Nat := 255

/-- The modulus of the coordinates. -/
def modulus : Nat := 2 ^ coordinateBits - 19

/-- The order of the base point: three bits below the coordinates, and a bit more. -/
def baseOrder : Nat := 2 ^ (coordinateBits - 3) + 27742317777372353535851937790883648493

/-- The coefficient of the curve's equation, `-121665 / 121666`. -/
def coefficient : Nat :=
  37095705934669439343138083508754565189542113879843219016388785533085940283555

/-- A square root of minus one. -/
def rootOfMinusOne : Nat :=
  19681161376707505956807079304988542015446066515923890162744021073123829784752

namespace Field

/-- The difference of two coordinates. -/
def sub (a b : Nat) : Nat := (a + (modulus - b % modulus)) % modulus

/-- The product of two coordinates. -/
def mul (a b : Nat) : Nat := a * b % modulus

/-- A power of a coordinate, by squaring along the bits of the exponent. -/
def pow (a exponent : Nat) : Nat :=
  (List.range (exponent.log2 + 1)).foldr
    (fun bit power =>
      let square := mul power power
      if exponent.testBit bit then mul square a else square)
    1

/-- The inverse of a coordinate other than zero. -/
def inv (a : Nat) : Nat := pow a (modulus - 2)

/-- The even one of the square roots of `numerator / denominator`, if there are any. -/
def sqrtDiv? (numerator denominator : Nat) : Option Nat :=
  let cube := mul (mul denominator denominator) denominator
  let seventh := mul (mul cube cube) denominator
  let candidate := mul (mul numerator cube) (pow (mul numerator seventh) ((modulus - 5) / 8))
  let check := mul denominator (mul candidate candidate)
  let even (root : Nat) : Nat := if root % 2 = 0 then root else sub 0 root
  if check = numerator % modulus then some (even candidate)
  else if check = sub 0 numerator then some (even (mul candidate rootOfMinusOne))
  else none

end Field

/-- A point in extended coordinates: `x / z` and `y / z`, with `x y = z t`. -/
structure Point where
  x : Nat
  y : Nat
  z : Nat
  t : Nat

namespace Point

/-- The neutral point. -/
def zero : Point := ⟨0, 1, 1, 0⟩

/-- The base point, with `y = 4 / 5` and even `x`. -/
def base : Point :=
  let x := 15112221349535400772501151409588531511454012693041857206046113283949847762202
  let y := 46316835694926478169428394003475163141307993866256225615783033603165251855960
  ⟨x, y, 1, Field.mul x y⟩

/-- The sum of two points. -/
def add (p q : Point) : Point :=
  let a := Field.mul (Field.sub p.y p.x) (Field.sub q.y q.x)
  let b := Field.mul (p.y + p.x) (q.y + q.x)
  let c := Field.mul (Field.mul (2 * coefficient) p.t) q.t
  let d := Field.mul (2 * p.z) q.z
  let e := Field.sub b a
  let f := Field.sub d c
  let g := d + c
  let h := b + a
  ⟨Field.mul e f, Field.mul g h, Field.mul f g, Field.mul e h⟩

/-- The opposite point. -/
def neg (p : Point) : Point := ⟨Field.sub 0 p.x, p.y, p.z, Field.sub 0 p.t⟩

/-- The written form of a point. -/
def encode (p : Point) : Octets 32 :=
  let inverse := Field.inv p.z
  let x := Field.mul p.x inverse
  let y := Field.mul p.y inverse
  ⟨littleEndian 32 (y + x % 2 * 2 ^ coordinateBits), length_littleEndian _ _⟩

/-- The point with a given written form, if there is one. -/
def decode? (written : Octets 32) : Option Point := do
  let number := ofLittleEndian written.bytes
  let y := number % 2 ^ coordinateBits % modulus
  let square := Field.mul y y
  let root ← Field.sqrtDiv? (Field.sub square 1) ((Field.mul coefficient square + 1) % modulus)
  let x := if number.testBit coordinateBits then Field.sub 0 root else root
  return ⟨x, y, 1, Field.mul x y⟩

end Point

/-- The group of the curve's points. -/
def group : PointGroup where
  Point := Point
  zero := Point.zero
  add := Point.add
  neg := Point.neg
  base := Point.base
  order := baseOrder
  cofactor := 8
  encode := Point.encode
  decode? := Point.decode?

end KeyTransparency.Edwards25519
