import KeyTransparency.Octets

/-!
# Groups of points

Signatures and verifiable random functions compute in a group of points on a curve, with a base
point and points written as 32 bytes.  They are defined over any such group, so that what holds of
them can be derived from the laws of the group alone.
-/

namespace KeyTransparency

/-- A group of points with a base point and a written form. -/
structure PointGroup where
  Point : Type
  zero : Point
  add : Point → Point → Point
  neg : Point → Point
  base : Point
  /-- How often the base point is added to itself until the sum is zero. -/
  order : Nat
  /-- What takes every point into the multiples of the base point. -/
  cofactor : Nat
  encode : Point → Octets 32
  decode? : Octets 32 → Option Point

namespace PointGroup

variable (G : PointGroup)

/-- A multiple of a point, by doubling along the bits of the multiplier. -/
def smul (n : Nat) (p : G.Point) : G.Point :=
  (List.range (n.log2 + 1)).foldr
    (fun bit sum =>
      let double := G.add sum sum
      if n.testBit bit then G.add double p else double)
    G.zero

/-- The difference of two points. -/
def sub (p q : G.Point) : G.Point := G.add p (G.neg q)

/-- The multiple of a point that lies among the multiples of the base point. -/
def clearCofactor (p : G.Point) : G.Point := G.smul G.cofactor p

/-- Whether a point vanishes when its cofactor is cleared. -/
def isSmallOrder (p : G.Point) : Bool := G.encode (G.clearCofactor p) == G.encode G.zero

end PointGroup

end KeyTransparency
