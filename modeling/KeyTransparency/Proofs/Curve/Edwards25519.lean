import KeyTransparency.Proofs.Curve.Edwards
import KeyTransparency.Proofs.Curve.Field
import Mathlib.GroupTheory.OrderOfElement

/-!
# The group of edwards25519

Extended coordinates stand for the points of a complete Edwards curve over the residues modulo
`2 ^ 255 - 19`.  The operations on them are those of the group of the curve, a point is written in
one way, and what is written is read back.  The curve has eight times as many points as the base
point has multiples, so that eight times any point is annihilated by the order of the base point.
-/

namespace KeyTransparency.Edwards25519

/-! ## The curve -/

theorem two_ne_zero : (2 : ZMod modulus) ≠ 0 := by
  intro h
  have hsmall : 2 < modulus := by decide
  have hsame := Field.eq_of_cast_eq hsmall Field.modulus_pos (by simpa using h)
  omega

theorem coefficient_not_isSquare : ¬IsSquare (coefficient : ZMod modulus) := by
  have hpow : Field.pow coefficient (modulus / 2) = Field.sub 0 1 := by decide +kernel
  have hcast := congrArg (Nat.cast : Nat → ZMod modulus) hpow
  rw [Field.cast_pow, Field.cast_sub, Nat.cast_zero, Nat.cast_one, zero_sub] at hcast
  have hne : (coefficient : ZMod modulus) ≠ 0 := by
    intro hzero
    rw [hzero, zero_pow (by decide), zero_eq_neg] at hcast
    exact one_ne_zero hcast
  intro hsquare
  rw [(ZMod.euler_criterion modulus hne).mp hsquare] at hcast
  apply two_ne_zero
  linear_combination hcast

/-- The curve over the residues modulo the modulus. -/
def curve : EdwardsCurve (ZMod modulus) where
  coefficient := coefficient
  root := rootOfMinusOne
  root_sq := Field.rootOfMinusOne_sq
  not_isSquare := coefficient_not_isSquare
  two_ne_zero := two_ne_zero

/-- The coordinates of a point stand for a point of the curve. -/
structure Stands (p : Point) (a : curve.Point) : Prop where
  z_ne_zero : (p.z : ZMod modulus) ≠ 0
  x_eq : (p.x : ZMod modulus) = a.x * p.z
  y_eq : (p.y : ZMod modulus) = a.y * p.z
  t_eq : (p.t : ZMod modulus) = a.x * a.y * p.z

namespace Stands

variable {p q : Point} {a b : curve.Point}

theorem zero : Stands Point.zero 0 := by
  constructor <;> simp [Point.zero]

theorem neg (h : Stands p a) : Stands p.neg (-a) := by
  obtain ⟨hz, hx, hy, ht⟩ := h
  constructor
  · exact hz
  · simp [Point.neg, hx]
  · exact hy
  · simp [Point.neg, ht]

/-- The sum of two points is computed over one denominator. -/
theorem add (hp : Stands p a) (hq : Stands q b) : Stands (p.add q) (a + b) := by
  obtain ⟨hz, hx, hy, ht⟩ := hp
  obtain ⟨hz', hx', hy', ht'⟩ := hq
  let scale : ZMod modulus := 2 * p.z * q.z
  have hscale : scale ≠ 0 := mul_ne_zero (mul_ne_zero two_ne_zero hz) hz'
  have hsumx : ((p.add q).x : ZMod modulus) = scale ^ 2 * (a.sumX b * (1 - a.twist b)) := by
    simp only [Point.add, Field.cast_mul, Field.cast_sub, Nat.cast_add, Nat.cast_mul, hx, hy, ht,
      hx', hy', ht', EdwardsCurve.Point.sumX, EdwardsCurve.Point.twist, curve, scale]
    ring
  have hsumy : ((p.add q).y : ZMod modulus) = scale ^ 2 * (a.sumY b * (1 + a.twist b)) := by
    simp only [Point.add, Field.cast_mul, Field.cast_sub, Nat.cast_add, Nat.cast_mul, hx, hy, ht,
      hx', hy', ht', EdwardsCurve.Point.sumY, EdwardsCurve.Point.twist, curve, scale]
    ring
  have hsumz : ((p.add q).z : ZMod modulus) =
      scale ^ 2 * ((1 - a.twist b) * (1 + a.twist b)) := by
    simp only [Point.add, Field.cast_mul, Field.cast_sub, Nat.cast_add, Nat.cast_mul, ht, ht',
      EdwardsCurve.Point.twist, curve, scale]
    ring
  have hsumt : ((p.add q).t : ZMod modulus) = scale ^ 2 * (a.sumX b * a.sumY b) := by
    simp only [Point.add, Field.cast_mul, Field.cast_sub, Nat.cast_add, hx, hy, hx', hy',
      EdwardsCurve.Point.sumX, EdwardsCurve.Point.sumY, scale]
    ring
  have hdenominators := mul_ne_zero (a.one_sub_twist_ne_zero b) (a.one_add_twist_ne_zero b)
  constructor
  · rw [hsumz]
    exact mul_ne_zero (pow_ne_zero 2 hscale) hdenominators
  · rw [hsumx, hsumz, ← a.x_add b]
    ring
  · rw [hsumy, hsumz, ← a.y_add b]
    ring
  · rw [hsumt, hsumz, ← a.x_add b, ← a.y_add b]
    ring

end Stands

/-! ## The base point -/

theorem contains_base : curve.Contains Point.base.x Point.base.y := by
  have hequation : Field.sub (Field.mul Point.base.y Point.base.y)
      (Field.mul Point.base.x Point.base.x) =
        (1 + Field.mul (Field.mul coefficient (Field.mul Point.base.x Point.base.x))
          (Field.mul Point.base.y Point.base.y)) % modulus := by
    decide +kernel
  have hcast := congrArg (Nat.cast : Nat → ZMod modulus) hequation
  simpa only [EdwardsCurve.Contains, curve, ZMod.natCast_mod, Field.cast_sub, Field.cast_mul,
    Nat.cast_add, Nat.cast_one, ← pow_two] using hcast

/-- The point of the curve for which the base point stands. -/
def basePoint : curve.Point := ⟨Point.base.x, Point.base.y, contains_base⟩

theorem stands_base : Stands Point.base basePoint := by
  constructor <;> simp [Point.base, basePoint]

/-! ## Written points -/

/-- The number that is written for a point: its second coordinate, and the lowest bit of the
first. -/
def number (a : curve.Point) : Nat := a.y.val + a.x.val % 2 * 2 ^ coordinateBits

theorem modulus_lt : modulus < 2 ^ coordinateBits := by decide

theorem number_lt (a : curve.Point) : number a < 2 ^ 256 := by
  have hy := a.y.val_lt.trans modulus_lt
  have hbit := Nat.mod_lt a.x.val two_pos
  unfold number
  rw [coordinateBits] at hy ⊢
  omega

/-- What is written for a point depends on the point of the curve only. -/
theorem Stands.bytes_encode {p : Point} {a : curve.Point} (h : Stands p a) :
    p.encode.bytes = littleEndian 32 (number a) := by
  have hx : Field.mul p.x (Field.inv p.z) = a.x.val := by
    refine Field.eq_of_cast_eq (Field.mul_lt _ _) a.x.val_lt ?_
    rw [Field.cast_mul, Field.cast_inv, h.x_eq, mul_inv_cancel_right₀ h.z_ne_zero,
      ZMod.natCast_zmod_val]
  have hy : Field.mul p.y (Field.inv p.z) = a.y.val := by
    refine Field.eq_of_cast_eq (Field.mul_lt _ _) a.y.val_lt ?_
    rw [Field.cast_mul, Field.cast_inv, h.y_eq, mul_inv_cancel_right₀ h.z_ne_zero,
      ZMod.natCast_zmod_val]
  simp only [Point.encode, hx, hy, number]

theorem ofLittleEndian_number {written : Octets 32} {a : curve.Point}
    (h : written.bytes = littleEndian 32 (number a)) :
    ofLittleEndian written.bytes = number a := by
  rw [h, ofLittleEndian_littleEndian]
  exact Nat.mod_eq_of_lt (number_lt a)

/-! ## Points read -/

/-- The point that is read for a second coordinate, a root and a sign. -/
def signed (y : Nat) (negative : Bool) (root : Nat) : Point :=
  let x := if negative then Field.sub 0 root else root
  ⟨x, y, 1, Field.mul x y⟩

theorem decode?_eq (written : Octets 32) :
    Point.decode? written =
      let number := ofLittleEndian written.bytes
      let y := number % 2 ^ coordinateBits % modulus
      (Field.sqrtDiv? (Field.sub (Field.mul y y) 1)
        ((Field.mul coefficient (Field.mul y y) + 1) % modulus)).map
          (signed y (number.testBit coordinateBits)) := by
  unfold Point.decode?
  simp only
  generalize Field.sqrtDiv? _ _ = root
  cases root with
  | none => rfl
  | some root => rfl

/-- The root for a second coordinate is the even first coordinate on the curve. -/
theorem sqrtDiv?_eq_some_iff_contains {y root : Nat} :
    Field.sqrtDiv? (Field.sub (Field.mul y y) 1)
        ((Field.mul coefficient (Field.mul y y) + 1) % modulus) = some root ↔
      root < modulus ∧ root % 2 = 0 ∧ curve.Contains root y := by
  have hdenominator : ((Field.mul coefficient (Field.mul y y) + 1) % modulus : Nat) =
      (curve.coefficient * (y : ZMod modulus) ^ 2 + 1 : ZMod modulus) := by
    rw [ZMod.natCast_mod, Nat.cast_add, Field.cast_mul, Field.cast_mul, Nat.cast_one, pow_two]
    rfl
  have hne := curve.coefficient_mul_sq_add_one_ne_zero (y : ZMod modulus)
  rw [← hdenominator] at hne
  rw [Field.sqrtDiv?_eq_some_iff hne, hdenominator, Field.cast_sub, Field.cast_mul, Nat.cast_one,
    EdwardsCurve.Contains]
  refine and_congr_right fun _ => and_congr_right fun _ => ⟨fun h => ?_, fun h => ?_⟩
  · linear_combination -h
  · linear_combination -h

theorem exists_stands_signed {y root : Nat} (h : curve.Contains root y) (negative : Bool) :
    ∃ a, Stands (signed y negative root) a := by
  have hcontains : curve.Contains (signed y negative root).x y := by
    cases negative with
    | false => exact h
    | true =>
      simpa only [signed, if_true, EdwardsCurve.Contains, Field.cast_sub, Nat.cast_zero, zero_sub,
        neg_sq] using h
  refine ⟨⟨_, y, hcontains⟩, ?_⟩
  constructor <;> simp [signed]

/-- What is read from bytes stands for a point of the curve. -/
theorem exists_stands_of_decode? {written : Octets 32} {p : Point}
    (h : Point.decode? written = some p) : ∃ a, Stands p a := by
  rw [decode?_eq] at h
  obtain ⟨root, hroot, rfl⟩ := Option.map_eq_some_iff.mp h
  exact exists_stands_signed (sqrtDiv?_eq_some_iff_contains.mp hroot).2.2 _

/-- The coordinates of a point of the curve, as numbers below the modulus. -/
def reduced (a : curve.Point) : Point := ⟨a.x.val, a.y.val, 1, Field.mul a.x.val a.y.val⟩

theorem stands_reduced (a : curve.Point) : Stands (reduced a) a := by
  constructor <;> simp [reduced]

theorem signed_even (a : curve.Point) :
    signed a.y.val (decide (a.x.val % 2 = 1)) (Field.even a.x.val) = reduced a := by
  have hx : (if decide (a.x.val % 2 = 1) then Field.sub 0 (Field.even a.x.val)
      else Field.even a.x.val) = a.x.val := by
    unfold Field.even
    rcases Nat.mod_two_eq_zero_or_one a.x.val with heven | hodd
    · simp [heven]
    · simp only [hodd, decide_true, if_true, one_ne_zero, if_false]
      refine Field.eq_of_cast_eq (Field.sub_lt _ _) a.x.val_lt ?_
      simp
  simp only [signed, hx, reduced]

/-- A point is read back in reduced coordinates. -/
theorem decode?_of_bytes_eq {written : Octets 32} {a : curve.Point}
    (h : written.bytes = littleEndian 32 (number a)) :
    Point.decode? written = some (reduced a) := by
  have hy := a.y.val_lt.trans modulus_lt
  have hlow : number a % 2 ^ coordinateBits % modulus = a.y.val := by
    rw [number, Nat.add_mul_mod_self_right, Nat.mod_eq_of_lt hy, Nat.mod_eq_of_lt a.y.val_lt]
  have hbit : (number a).testBit coordinateBits = decide (a.x.val % 2 = 1) := by
    rw [number, Nat.testBit_eq_decide_div_mod_eq, Nat.add_mul_div_right _ _ (Nat.two_pow_pos _),
      Nat.div_eq_of_lt hy, Nat.zero_add, Nat.mod_mod]
  have hroot : Field.sqrtDiv? (Field.sub (Field.mul a.y.val a.y.val) 1)
      ((Field.mul coefficient (Field.mul a.y.val a.y.val) + 1) % modulus) =
        some (Field.even a.x.val) := by
    obtain ⟨hlt, heven, hsquare⟩ := Field.even_spec a.x.val_lt
    refine sqrtDiv?_eq_some_iff_contains.mpr ⟨hlt, heven, ?_⟩
    have hcontains := a.contains
    unfold EdwardsCurve.Contains at hcontains ⊢
    rwa [hsquare, ZMod.natCast_zmod_val, ZMod.natCast_zmod_val]
  simp only [decode?_eq, ofLittleEndian_number h, hlow, hbit, hroot, Option.map_some, signed_even]

/-- A point of the curve is determined by what is written for it. -/
theorem number_injective : Function.Injective number := by
  intro a b h
  have hread : Point.decode? ⟨littleEndian 32 (number a), length_littleEndian _ _⟩ =
      some (reduced a) := decode?_of_bytes_eq rfl
  have hread' : Point.decode? ⟨littleEndian 32 (number a), length_littleEndian _ _⟩ =
      some (reduced b) := decode?_of_bytes_eq (by rw [h])
  have hreduced := Option.some.inj (hread.symm.trans hread')
  ext
  · exact ZMod.val_injective modulus (congrArg Point.x hreduced)
  · exact ZMod.val_injective modulus (congrArg Point.y hreduced)

/-- Points are written alike exactly if they stand for the same point of the curve. -/
theorem Stands.encode_eq_iff {p q : Point} {a b : curve.Point} (hp : Stands p a)
    (hq : Stands q b) : p.encode = q.encode ↔ a = b := by
  constructor
  · intro h
    apply number_injective
    rw [← ofLittleEndian_number hp.bytes_encode, h, ofLittleEndian_number hq.bytes_encode]
  · rintro rfl
    exact Octets.eq_of_bytes_eq (hp.bytes_encode.trans hq.bytes_encode.symm)

/-! ## The number of points -/

/-- A multiple of a point stands for the multiple of the point of the curve. -/
theorem Stands.smul {p : Point} {a : curve.Point} (h : Stands p a) (n : Nat) :
    Stands (group.smul n p) (n • a) :=
  PointGroup.stands_smul zero add n h

theorem nsmul_basePoint : baseOrder • basePoint = 0 := by
  rw [← (stands_base.smul baseOrder).encode_eq_iff Stands.zero]
  decide +kernel

theorem basePoint_ne_zero : basePoint ≠ 0 := by
  rw [Ne, ← stands_base.encode_eq_iff Stands.zero]
  decide +kernel

theorem addOrderOf_basePoint : addOrderOf basePoint = baseOrder :=
  have := Fact.mk prime_baseOrder
  addOrderOf_eq_prime nsmul_basePoint basePoint_ne_zero

/-- A written point of order eight. -/
def writtenTorsion : Octets 32 :=
  ⟨bigEndian 32 0x26e8958fc2b227b045c3f489f2ef98f0d5dfac05d3c63339b13802886d53fc05, rfl⟩

/-- There is a point of order eight. -/
theorem exists_addOrderOf_eq_eight : ∃ a : curve.Point, addOrderOf a = 2 ^ 3 := by
  have hmultiples : (Point.decode? writtenTorsion).map
      (fun p => (decide ((group.smul (2 ^ 2) p).encode = Point.zero.encode),
        decide ((group.smul (2 ^ 3) p).encode = Point.zero.encode))) = some (false, true) := by
    decide +kernel
  obtain ⟨p, hread, hpair⟩ := Option.map_eq_some_iff.mp hmultiples
  obtain ⟨a, ha⟩ := exists_stands_of_decode? hread
  obtain ⟨hfour, height⟩ := Prod.mk.inj hpair
  have htwo := Fact.mk Nat.prime_two
  refine ⟨a, addOrderOf_eq_prime_pow ?_ ?_⟩
  · exact fun hzero => of_decide_eq_false hfour (((ha.smul _).encode_eq_iff Stands.zero).mpr hzero)
  · exact ((ha.smul _).encode_eq_iff Stands.zero).mp (of_decide_eq_true height)

instance : Finite curve.Point :=
  Finite.of_injective (fun a => (⟨number a, number_lt a⟩ : Fin (2 ^ 256))) fun _ _ h =>
    number_injective (Fin.mk.inj h)

theorem card_le : Nat.card curve.Point ≤ 2 ^ 256 := by
  have hcard := Nat.card_le_card_of_injective
    (fun a : curve.Point => (⟨number a, number_lt a⟩ : Fin (2 ^ 256))) fun _ _ h =>
      number_injective (Fin.mk.inj h)
  rwa [Nat.card_fin] at hcard

/-- The curve has eight points for every multiple of the base point. -/
theorem card_eq : Nat.card curve.Point = 8 * baseOrder := by
  obtain ⟨a, ha⟩ := exists_addOrderOf_eq_eight
  have height : 8 ∣ Nat.card curve.Point := by
    have hdvd := addOrderOf_dvd_natCard a
    rwa [ha] at hdvd
  have horder : baseOrder ∣ Nat.card curve.Point := by
    have hdvd := addOrderOf_dvd_natCard basePoint
    rwa [addOrderOf_basePoint] at hdvd
  have hcoprime : Nat.Coprime 8 baseOrder := by decide
  obtain ⟨factor, hfactor⟩ := hcoprime.mul_dvd_of_dvd_of_dvd height horder
  have hpos : 0 < Nat.card curve.Point := Nat.card_pos
  have hmany : 2 ^ 256 < 8 * baseOrder * 2 := by decide
  have hle := card_le
  have hone : factor = 1 := by
    rw [hfactor] at hpos hle
    have hlt := Nat.lt_of_mul_lt_mul_left (Nat.lt_of_le_of_lt hle hmany)
    have hne : factor ≠ 0 := by
      rintro rfl
      exact Nat.lt_irrefl _ hpos
    omega
  rw [hfactor, hone, Nat.mul_one]

/-- The order of the base point annihilates eight times any point. -/
theorem nsmul_eight_nsmul (a : curve.Point) : baseOrder • 8 • a = 0 := by
  rw [← mul_nsmul, ← card_eq]
  exact card_nsmul_eq_zero'

/-! ## The laws -/

/-- The points of edwards25519 stand for those of the curve. -/
theorem presents : group.Presents Stands where
  zero := Stands.zero
  add := Stands.add
  neg := Stands.neg
  base := ⟨basePoint, stands_base, nsmul_basePoint⟩
  cofactor := nsmul_eight_nsmul
  encode hp hq := (hp.encode_eq_iff hq).mpr rfl
  decode := exists_stands_of_decode?
  decode_encode h := ⟨_, decode?_of_bytes_eq h.bytes_encode, stands_reduced _⟩
  order_pos := prime_baseOrder.pos
  order_le := by decide

end KeyTransparency.Edwards25519
