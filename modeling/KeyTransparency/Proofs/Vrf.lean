import KeyTransparency.Proofs.Curve.Edwards25519
import KeyTransparency.Proofs.Success
import KeyTransparency.Vrf

/-!
# What a proof of a random function shows

A proof made with a secret key is accepted with the public key, and the output is that of the
multiple of the point for the input by the secret scalar.  The verifier subtracts a multiple of the
public key from a multiple of the base point, and finds the point of the nonce if multipliers count
modulo the order.
-/

namespace KeyTransparency

namespace Vrf

variable {G : PointGroup} {A : Type} [AddCommGroup A] {stands : G.Point → A → Prop}

/-! ## Points written alike -/

theorem challenge_congr {points points' : List G.Point}
    (h : points.map G.encode = points'.map G.encode) : challenge G points = challenge G points' := by
  have hwritten : points.flatMap (fun point => (G.encode point).bytes) =
      points'.flatMap fun point => (G.encode point).bytes := by
    simpa only [List.flatMap_map] using congrArg (List.flatMap Octets.bytes) h
  simp only [challenge, hwritten]

theorem proofToHash_congr (h : G.Presents stands) {p q : G.Point} {a : A} (hp : stands p a)
    (hq : stands q a) : proofToHash G p = proofToHash G q := by
  rw [proofToHash, proofToHash, h.encode (h.clearCofactor hp) (h.clearCofactor hq)]

/-- The order annihilates the point for an input. -/
theorem stands_of_encodeToCurve (h : G.Presents stands) {publicKey : Octets 32} {input : Bytes}
    {point : G.Point} (hpoint : encodeToCurve G publicKey input = .ok point) :
    ∃ a, stands point a ∧ G.order • a = 0 := by
  unfold encodeToCurve at hpoint
  simp only at hpoint
  split at hpoint
  · rename_i trial htrial
    cases hpoint
    obtain ⟨counter, -, hdecode⟩ := List.exists_of_findSome?_eq_some htrial
    obtain ⟨a, ha⟩ := h.decode hdecode
    exact ⟨G.cofactor • a, h.clearCofactor ha, h.cofactor a⟩
  · cases hpoint

/-! ## Proofs written and read -/

/-- A written proof is read back, but for the point, which is another that stands for the same. -/
theorem Proof.decode?_encode (h : G.Presents stands) {gamma : G.Point} {a : A} {c : Octets 16}
    {scalar : Nat} (hgamma : stands gamma a) (hscalar : scalar < G.order) :
    ∃ gamma', Proof.decode? (Proof.mk gamma c scalar).encode.bytes = some ⟨gamma', c, scalar⟩ ∧
      stands gamma' a := by
  obtain ⟨gamma', hdecode, hstands⟩ := h.decode_encode hgamma
  refine ⟨gamma', ?_, hstands⟩
  have hbytes : (Proof.mk gamma c scalar).encode.bytes =
      (G.encode gamma).bytes ++ c.bytes ++ littleEndian 32 scalar := rfl
  have hpoint : (Proof.mk gamma c scalar).encode.take 32 (by decide) = G.encode gamma := by
    apply Octets.eq_of_bytes_eq
    change ((G.encode gamma).bytes ++ c.bytes ++ littleEndian 32 scalar).take 32 = _
    rw [List.append_assoc]
    exact List.take_left' (G.encode gamma).length_bytes
  have hchallenge :
      ((Proof.mk gamma c scalar).encode.bytes.drop 32).take challengeSize = c.bytes := by
    rw [hbytes, List.append_assoc, List.drop_left' (G.encode gamma).length_bytes]
    exact List.take_left' c.length_bytes
  have hnumber :
      ofLittleEndian ((Proof.mk gamma c scalar).encode.bytes.drop (32 + challengeSize)) =
        scalar := by
    have hlength : ((G.encode gamma).bytes ++ c.bytes).length = 32 + challengeSize := by
      rw [List.length_append, Octets.length_bytes, Octets.length_bytes, challengeSize]
    rw [hbytes, List.drop_left' hlength, ofLittleEndian_littleEndian]
    exact Nat.mod_eq_of_lt (Nat.lt_of_lt_of_le hscalar h.order_le)
  simp only [decode?, Octets.ofBytes?_bytes, hpoint, hdecode, hchallenge, hnumber, if_pos hscalar,
    Option.bind_eq_bind, Option.bind_some]

/-! ## Proofs made and checked -/

/-- A proof is accepted if its challenge is the one for the points that the verifier computes. -/
theorem PublicKey.verify_of_challenge_eq {key : PublicKey G} {input proof : Bytes}
    {gamma point : G.Point} {c : Octets 16} {scalar : Nat}
    (hdecode : Proof.decode? proof = some ⟨gamma, c, scalar⟩)
    (hpoint : encodeToCurve G key.bytes input = .ok point)
    (hchallenge : challenge G [key.point, point, gamma,
      G.sub (G.smul scalar G.base) (G.smul (ofLittleEndian c.bytes) key.point),
      G.sub (G.smul scalar point) (G.smul (ofLittleEndian c.bytes) gamma)] = c) :
    key.verify input proof = .ok (proofToHash G gamma) := by
  unfold verify
  simp only [hdecode, hpoint]
  exact if_pos hchallenge

/-- A multiple by the scalar of a proof, less a multiple by the challenge, is the multiple by the
nonce. -/
theorem nonce_nsmul_eq {a : A} (ha : G.order • a = 0) (nonce c secret : Nat) :
    ((nonce + c * secret) % G.order) • a - c • secret • a = nonce • a := by
  rw [PointGroup.mod_order_nsmul ha, add_nsmul, mul_nsmul', add_sub_cancel_right]

namespace SecretKey

variable {key : SecretKey G} {input : Bytes} {written : Octets proofSize}

/-- The point for the difference that the verifier computes is the point for the nonce. -/
theorem stands_sub (h : G.Presents stands) {p q : G.Point} {a : A} (ha : G.order • a = 0)
    (hp : stands p a) (nonce c : Nat) (hq : stands q (key.scalar • a)) :
    stands (G.sub (G.smul ((nonce + c * key.scalar) % G.order) p) (G.smul c q)) (nonce • a) := by
  rw [← nonce_nsmul_eq ha nonce c key.scalar]
  exact h.sub (h.smul _ hp) (h.smul c hq)

/-- All that goes into a proof. -/
theorem prove_eq_ok (hprove : key.prove input = .ok written) :
    ∃ point nonce c, encodeToCurve G key.publicKey.bytes input = .ok point ∧
      c = challenge G [key.publicKey.point, point, G.smul key.scalar point,
        G.smul nonce G.base, G.smul nonce point] ∧
      written = (Proof.mk (G.smul key.scalar point) c
        ((nonce + ofLittleEndian c.bytes * key.scalar) % G.order)).encode := by
  obtain ⟨point, hpoint, hproof⟩ := bind_eq_ok_iff.mp hprove
  exact ⟨point, _, _, hpoint, rfl, (Except.ok.inj hproof).symm⟩

/-- A proof made with a secret key is accepted with its public key. -/
theorem verify_of_prove (h : G.Presents stands)
    (hkey : key.publicKey.point = G.smul key.scalar G.base)
    (hprove : key.prove input = .ok written) :
    ∃ point, encodeToCurve G key.publicKey.bytes input = .ok point ∧
      key.publicKey.verify input written.bytes = .ok (proofToHash G (G.smul key.scalar point)) := by
  obtain ⟨point, nonce, c, hpoint, hc, hwritten⟩ := prove_eq_ok hprove
  refine ⟨point, hpoint, ?_⟩
  obtain ⟨b, hbase, hb⟩ := h.base
  obtain ⟨a, ha, haorder⟩ := stands_of_encodeToCurve h hpoint
  have hpublic : stands key.publicKey.point (key.scalar • b) := hkey ▸ h.smul key.scalar hbase
  have hgamma := h.smul key.scalar ha
  obtain ⟨gamma, hdecode, hstands⟩ := Proof.decode?_encode h hgamma (Nat.mod_lt _ h.order_pos)
  rw [← hwritten] at hdecode
  rw [proofToHash_congr h hgamma hstands]
  refine PublicKey.verify_of_challenge_eq hdecode hpoint ((challenge_congr ?_).trans hc.symm)
  simp only [List.map_cons, List.map_nil, List.cons.injEq, and_true, true_and]
  refine ⟨h.encode hstands hgamma, ?_, ?_⟩
  · exact h.encode (stands_sub h hb hbase _ _ hpublic) (h.smul _ hbase)
  · exact h.encode (stands_sub h haorder ha _ _ hstands) (h.smul _ ha)

end SecretKey

/-- A proof made with the key grown from a seed is accepted with its public key, for the output that
belongs to the multiple of the point for the input by the secret scalar, and the index that it shows
is the first half of the output. -/
theorem resolve_of_prove (h : G.Presents stands) (seed : Octets 32) (input : Bytes)
    (written : Octets proofSize) (hprove : (SecretKey.ofSeed G seed).prove input = .ok written) :
    ∃ point output, encodeToCurve G (SecretKey.ofSeed G seed).publicKey.bytes input = .ok point ∧
      output = proofToHash G (G.smul (SecretKey.ofSeed G seed).scalar point) ∧
      (SecretKey.ofSeed G seed).publicKey.verify input written.bytes = .ok output ∧
      ∃ index, (SecretKey.ofSeed G seed).publicKey.resolve input written.bytes = .ok index ∧
        index.bytes = output.bytes.take 32 := by
  obtain ⟨point, hpoint, hverify⟩ := SecretKey.verify_of_prove h rfl hprove
  refine ⟨point, _, hpoint, rfl, hverify, .ofOutput (proofToHash G _), ?_, rfl⟩
  rw [PublicKey.resolve, hverify]
  rfl

/-! ## A proof over edwards25519

Example 16 of RFC 9381. -/

namespace EmptyInput

open Edwards25519 (group)

def seed : Octets 32 :=
  ⟨bigEndian 32 0x9d61b19deffd5a60ba844af492ec2cc44449c5697b326919703bac031cae7f60, rfl⟩

def written : Octets proofSize where
  bytes :=
    bigEndian 32 0x8657106690b5526245a92b003bb079ccd1a92130477671f6fc01ad16f26f723f
      ++ bigEndian 16 0x26f8a57ccaed74ee1b190bed1f479d97
      ++ bigEndian 32 0x27d2d0f9b005a6e456a35d4fb0daab1268a1b0db10836d9826a528ca76567805
  length_bytes := by simp [proofSize, challengeSize]

theorem prove_seed : (SecretKey.ofSeed group seed).prove [] = .ok written := by
  decide +kernel

/-- The proof for the empty input is accepted. -/
theorem resolve_of_prove_seed :
    (SecretKey.ofSeed group seed).prove [] = .ok written ∧
      ∃ point output,
        encodeToCurve group (SecretKey.ofSeed group seed).publicKey.bytes [] = .ok point ∧
          output = proofToHash group (group.smul (SecretKey.ofSeed group seed).scalar point) ∧
          (SecretKey.ofSeed group seed).publicKey.verify [] written.bytes = .ok output ∧
          ∃ index, (SecretKey.ofSeed group seed).publicKey.resolve [] written.bytes = .ok index ∧
            index.bytes = output.bytes.take 32 :=
  ⟨prove_seed, resolve_of_prove Edwards25519.presents seed [] written prove_seed⟩

end EmptyInput

end Vrf

end KeyTransparency
