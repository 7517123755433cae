import KeyTransparency.Curve.PointGroup
import KeyTransparency.Digest.Sha512
import KeyTransparency.Identifier

/-!
# Verifiable random functions

The owner of a secret key maps an input to 64 bytes and proves the mapping to everyone who holds the
public key, while nobody else can tell the bytes in advance.  The construction is ECVRF with SHA-512
and with inputs taken to the curve by trial; its suite number is 3.

A proof holds a point, a challenge of 16 bytes and a scalar below the order of the base point.
-/

namespace KeyTransparency.Vrf

/-- Why a key or a proof is refused. -/
inductive Error where
  | invalidProof
  | malformedPublicKey
  | noCurvePoint
deriving DecidableEq

/-- The error in words. -/
def Error.message : Error → String
  | invalidProof => "invalid VRF proof"
  | malformedPublicKey => "malformed VRF public key"
  | noCurvePoint => "could not hash input to the curve"

/-- The number of bytes in a challenge. -/
def challengeSize : Nat := 16

/-- The number of bytes in a proof. -/
def proofSize : Nat := 32 + challengeSize + 32

/-- The number of the construction, which begins everything that is hashed. -/
def suite : UInt8 := 0x03

variable (G : PointGroup)

/-- The point for an input under a public key: the first trial that is a point, with its cofactor
cleared. -/
def encodeToCurve (publicKey : Octets 32) (input : Bytes) : Except Error G.Point :=
  let trial (counter : Nat) : Option G.Point :=
    let digest := Digest.Sha512.digest
      (suite :: 0x01 :: (publicKey.bytes ++ input ++ [UInt8.ofNat counter, 0x00]))
    G.decode? (digest.take 32 Octets.half_le)
  match (List.range 256).findSome? trial with
  | some point => .ok (G.clearCofactor point)
  | none => .error .noCurvePoint

/-- The challenge for a sequence of points. -/
def challenge (points : List G.Point) : Octets 16 :=
  let written := points.flatMap fun point => (G.encode point).bytes
  (Digest.Sha512.digest (suite :: 0x02 :: (written ++ [0x00]))).take 16 (by decide)

/-- The output that a proof with a given point stands for. -/
def proofToHash (point : G.Point) : Octets 64 :=
  Digest.Sha512.digest (suite :: 0x03 :: ((G.encode (G.clearCofactor point)).bytes ++ [0x00]))

/-- The parts of a proof. -/
structure Proof where
  gamma : G.Point
  challenge : Octets 16
  scalar : Nat

namespace Proof

variable {G}

/-- The written form of a proof. -/
def encode (proof : Proof G) : Octets proofSize where
  bytes := (G.encode proof.gamma).bytes ++ proof.challenge.bytes ++ littleEndian 32 proof.scalar
  length_bytes := by
    simp [Octets.length_bytes, proofSize, challengeSize]

/-- The proof with a given written form, if there is one. -/
def decode? (bytes : Bytes) : Option (Proof G) := do
  let written ← Octets.ofBytes? proofSize bytes
  let gamma ← G.decode? (written.take 32 (by decide))
  let challenge ← Octets.ofBytes? 16 ((written.bytes.drop 32).take challengeSize)
  let scalar := ofLittleEndian (written.bytes.drop (32 + challengeSize))
  if scalar < G.order then some ⟨gamma, challenge, scalar⟩ else none

end Proof

/-- A key that proofs are checked with: a point and the bytes it was given as. -/
structure PublicKey where
  bytes : Octets 32
  point : G.Point

namespace PublicKey

variable {G}

/-- The key given by some bytes.  They must be a point, and not one of small order. -/
def ofBytes (bytes : Octets 32) : Except Error (PublicKey G) :=
  match G.decode? bytes with
  | none => .error .malformedPublicKey
  | some point => if G.isSmallOrder point then .error .malformedPublicKey else .ok ⟨bytes, point⟩

/-- The output that a proof shows for an input. -/
def verify (key : PublicKey G) (input proof : Bytes) : Except Error (Octets 64) := do
  let some parts := Proof.decode? (G := G) proof | throw .invalidProof
  let point ← encodeToCurve G key.bytes input
  let c := ofLittleEndian parts.challenge.bytes
  let u := G.sub (G.smul parts.scalar G.base) (G.smul c key.point)
  let v := G.sub (G.smul parts.scalar point) (G.smul c parts.gamma)
  if challenge G [key.point, point, parts.gamma, u, v] = parts.challenge then
    return proofToHash G parts.gamma
  else throw .invalidProof

/-- The index of an identifier, as its proof shows it to the holder of a key. -/
def resolve (key : PublicKey G) (identifier proof : Bytes) : Except Error CommitmentIndex := do
  return .ofOutput (← key.verify identifier proof)

end PublicKey

/-- A key that makes proofs. -/
structure SecretKey where
  scalar : Nat
  /-- What makes the nonces of proofs unpredictable. -/
  nonceSeed : Octets 32
  publicKey : PublicKey G

namespace SecretKey

variable {G}

/-- The highest bit of every secret scalar. -/
def highestBit : Nat := 254

/-- The scalar that the first half of a digested seed stands for: a multiple of eight with the
highest bit set. -/
def clamp (bytes : Octets 32) : Nat :=
  ofLittleEndian bytes.bytes / 8 * 8 % 2 ^ highestBit + 2 ^ highestBit

/-- The secret key grown from a seed. -/
def ofSeed (G : PointGroup) (seed : Octets 32) : SecretKey G :=
  let digest := Digest.Sha512.digest seed.bytes
  let scalar := clamp (digest.take 32 Octets.half_le) % G.order
  let point := G.smul scalar G.base
  ⟨scalar, digest.drop 32, ⟨G.encode point, point⟩⟩

/-- The proof of the output for an input. -/
def prove (key : SecretKey G) (input : Bytes) : Except Error (Octets proofSize) := do
  let point ← encodeToCurve G key.publicKey.bytes input
  let gamma := G.smul key.scalar point
  let nonceDigest := Digest.Sha512.digest (key.nonceSeed.bytes ++ (G.encode point).bytes)
  let nonce := ofLittleEndian nonceDigest.bytes % G.order
  let c := challenge G
    [key.publicKey.point, point, gamma, G.smul nonce G.base, G.smul nonce point]
  let scalar := (nonce + ofLittleEndian c.bytes * key.scalar) % G.order
  return (Proof.mk gamma c scalar).encode

end SecretKey

end KeyTransparency.Vrf
