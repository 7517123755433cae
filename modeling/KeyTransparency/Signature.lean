import KeyTransparency.Curve.PointGroup
import KeyTransparency.Digest.Sha512

/-!
# Signatures

A signature is a point and a scalar.  It is accepted if the scalar is below the order of the base
point and the point recomputed from the scalar, the key and the message is written with the very
bytes that the signature begins with.
-/

namespace KeyTransparency.Signature

variable (G : PointGroup)

/-- A key that signatures are checked with: a point and the bytes it was given as, which need not be
the bytes that the point is written with. -/
structure PublicKey where
  bytes : Octets 32
  point : G.Point

namespace PublicKey

variable {G}

/-- The key given by some bytes, if they are a point. -/
def ofBytes? (bytes : Octets 32) : Option (PublicKey G) :=
  (G.decode? bytes).map fun point => ⟨bytes, point⟩

/-- The number by which the key is multiplied when a signature is checked. -/
def challenge (key : PublicKey G) (commitment message : Bytes) : Nat :=
  let digest := Digest.Sha512.digest (commitment ++ key.bytes.bytes ++ message)
  ofLittleEndian digest.bytes % G.order

/-- Whether a signature over a message verifies. -/
def verify (key : PublicKey G) (message signature : Bytes) : Bool :=
  let commitment := signature.take 32
  let scalar := ofLittleEndian (signature.drop 32)
  let negated := G.neg key.point
  signature.length == 64 && decide (scalar < G.order) &&
    (G.encode (G.add (G.smul scalar G.base)
      (G.smul (key.challenge commitment message) negated))).bytes == commitment

end PublicKey

end KeyTransparency.Signature
