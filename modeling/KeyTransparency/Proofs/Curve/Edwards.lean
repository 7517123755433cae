import Mathlib.Algebra.Field.Basic
import Mathlib.Algebra.Group.Even
import Mathlib.Tactic.FieldSimp
import Mathlib.Tactic.LinearCombination
import Mathlib.Tactic.Ring

/-!
# Complete Edwards curves

The points of the twisted Edwards curve `-x² + y² = 1 + d x² y²` over a field can be added by one
formula if minus one is a square in the field and `d` is not, because the denominators in the
formula are then never zero.  With this sum, the points are a commutative group.  The sums of three
points in either order agree in their first coordinates by the equation of the curve; a turn of the
curve that takes second coordinates to first ones shows that they agree in both.
-/

namespace KeyTransparency

/-- A twisted Edwards curve on which any two points can be added. -/
structure EdwardsCurve (K : Type) [Field K] where
  /-- The coefficient `d` of the equation. -/
  coefficient : K
  /-- A square root of minus one. -/
  root : K
  root_sq : root ^ 2 = -1
  not_isSquare : ¬IsSquare coefficient
  two_ne_zero : (2 : K) ≠ 0

namespace EdwardsCurve

variable {K : Type} [Field K] {curve : EdwardsCurve K}

/-- The equation of a curve. -/
def Contains (curve : EdwardsCurve K) (x y : K) : Prop :=
  y ^ 2 - x ^ 2 = 1 + curve.coefficient * x ^ 2 * y ^ 2

theorem root_ne_zero (curve : EdwardsCurve K) : curve.root ≠ 0 := by
  intro h
  have hroot := curve.root_sq
  simp [h] at hroot

theorem eq_zero_of_sq_eq (curve : EdwardsCurve K) {u v : K}
    (h : u ^ 2 = curve.coefficient * v ^ 2) : v = 0 := by
  by_contra hv
  refine curve.not_isSquare ⟨u / v, ?_⟩
  field_simp
  exact h.symm

/-- The coefficients of the square of the first coordinate never vanish. -/
theorem coefficient_mul_sq_add_one_ne_zero (curve : EdwardsCurve K) (y : K) :
    curve.coefficient * y ^ 2 + 1 ≠ 0 := by
  intro h
  have hy : y = 0 := by
    apply curve.eq_zero_of_sq_eq (u := curve.root)
    linear_combination curve.root_sq - h
  rw [hy] at h
  simp at h

/-- A point on a curve. -/
@[ext]
structure Point (curve : EdwardsCurve K) where
  x : K
  y : K
  contains : curve.Contains x y

namespace Point

/-! ## Denominators -/

/-- The denominators of the coordinates of a sum are one plus and one minus this number. -/
def twist (p q : curve.Point) : K := curve.coefficient * p.x * q.x * p.y * q.y

/-- No denominator of a sum is zero. -/
theorem twist_sq_ne_one (p q : curve.Point) : twist p q ^ 2 ≠ 1 := by
  intro h
  have hp := p.contains
  have hq := q.contains
  have hroot := curve.root_sq
  unfold Contains at hp hq
  unfold twist at h
  -- otherwise the coefficient times a square is a square, in two ways
  have hplus : p.x * p.y * (curve.root * q.x + q.y) = 0 := by
    apply curve.eq_zero_of_sq_eq (u := curve.root * p.x + twist p q * p.y)
    unfold twist
    linear_combination
      (p.x ^ 2 - curve.coefficient * p.x ^ 2 * p.y ^ 2 * q.x ^ 2) * hroot + (p.y ^ 2 - 1) * h +
        hp - curve.coefficient * p.x ^ 2 * p.y ^ 2 * hq
  have hminus : p.x * p.y * (curve.root * q.x - q.y) = 0 := by
    apply curve.eq_zero_of_sq_eq (u := curve.root * p.x - twist p q * p.y)
    unfold twist
    linear_combination
      (p.x ^ 2 - curve.coefficient * p.x ^ 2 * p.y ^ 2 * q.x ^ 2) * hroot + (p.y ^ 2 - 1) * h +
        hp - curve.coefficient * p.x ^ 2 * p.y ^ 2 * hq
  have hdouble : 2 * (p.x * p.y * q.y) = 0 := by linear_combination hplus - hminus
  have hzero := (mul_eq_zero.mp hdouble).resolve_left curve.two_ne_zero
  apply (one_ne_zero : (1 : K) ≠ 0)
  linear_combination curve.coefficient ^ 2 * q.x ^ 2 * p.x * p.y * q.y * hzero - h

theorem one_add_twist_ne_zero (p q : curve.Point) : 1 + twist p q ≠ 0 := by
  intro h
  apply twist_sq_ne_one p q
  linear_combination (twist p q - 1) * h

theorem one_sub_twist_ne_zero (p q : curve.Point) : 1 - twist p q ≠ 0 := by
  intro h
  apply twist_sq_ne_one p q
  linear_combination (-twist p q - 1) * h

theorem twist_comm (p q : curve.Point) : twist p q = twist q p := by
  unfold twist
  ring

/-! ## Sums -/

/-- The numerator of the first coordinate of a sum. -/
def sumX (p q : curve.Point) : K := p.x * q.y + q.x * p.y

/-- The numerator of the second coordinate of a sum. -/
def sumY (p q : curve.Point) : K := p.y * q.y + p.x * q.x

theorem contains_sum (p q : curve.Point) :
    curve.Contains (sumX p q / (1 + twist p q)) (sumY p q / (1 - twist p q)) := by
  have hp := p.contains
  have hq := q.contains
  have hplus := one_add_twist_ne_zero p q
  have hminus := one_sub_twist_ne_zero p q
  unfold Contains at hp hq ⊢
  field_simp
  unfold sumX sumY twist
  grind

instance : Zero curve.Point where
  zero := ⟨0, 1, by unfold Contains; ring⟩

instance : Neg curve.Point where
  neg p := ⟨-p.x, p.y, by rw [Contains, neg_sq]; exact p.contains⟩

instance : Add curve.Point where
  add p q := ⟨_, _, contains_sum p q⟩

@[simp]
theorem x_zero : (0 : curve.Point).x = 0 := rfl

@[simp]
theorem y_zero : (0 : curve.Point).y = 1 := rfl

@[simp]
theorem x_neg (p : curve.Point) : (-p).x = -p.x := rfl

@[simp]
theorem y_neg (p : curve.Point) : (-p).y = p.y := rfl

theorem x_add (p q : curve.Point) : (p + q).x * (1 + twist p q) = sumX p q :=
  div_mul_cancel₀ _ (one_add_twist_ne_zero p q)

theorem y_add (p q : curve.Point) : (p + q).y * (1 - twist p q) = sumY p q :=
  div_mul_cancel₀ _ (one_sub_twist_ne_zero p q)

/-- A point is a sum if its coordinates have the denominators and the numerators of the sum. -/
theorem eq_add {p q r : curve.Point} (hx : r.x * (1 + twist p q) = sumX p q)
    (hy : r.y * (1 - twist p q) = sumY p q) : r = p + q := by
  ext
  · exact mul_right_cancel₀ (one_add_twist_ne_zero p q) (hx.trans (x_add p q).symm)
  · exact mul_right_cancel₀ (one_sub_twist_ne_zero p q) (hy.trans (y_add p q).symm)

theorem add_comm' (p q : curve.Point) : p + q = q + p := by
  apply eq_add
  · rw [twist_comm, x_add]
    unfold sumX
    ring
  · rw [twist_comm, y_add]
    unfold sumY
    ring

theorem zero_add' (p : curve.Point) : 0 + p = p := by
  refine (eq_add ?_ ?_).symm
  · simp [twist, sumX]
  · simp [twist, sumY]

theorem neg_add_cancel' (p : curve.Point) : -p + p = 0 := by
  have hp := p.contains
  unfold Contains at hp
  refine (eq_add ?_ ?_).symm
  · simp [sumX]
  · simp only [twist, sumY, x_neg, y_neg, y_zero]
    linear_combination -hp

/-! ## Sums of three points -/

/-- The numerators and denominators of the first coordinates of the sums of three points. -/
theorem sumX_mul_eq (p q r : curve.Point) :
    sumX (p + q) r * (1 + twist p (q + r)) = sumX p (q + r) * (1 + twist (p + q) r) := by
  have hp := p.contains
  have hq := q.contains
  have hr := r.contains
  unfold Contains at hp hq hr
  have hne := sub_ne_zero.mpr (twist_sq_ne_one p q).symm
  have hne' := sub_ne_zero.mpr (twist_sq_ne_one q r).symm
  have hsum : (1 - twist p q ^ 2) * sumX (p + q) r =
      sumX p q * (1 - twist p q) * r.y + r.x * sumY p q * (1 + twist p q) := by
    rw [sumX, ← x_add, ← y_add]
    ring
  have hsum' : (1 - twist q r ^ 2) * sumX p (q + r) =
      p.x * sumY q r * (1 + twist q r) + sumX q r * (1 - twist q r) * p.y := by
    rw [sumX, ← x_add, ← y_add]
    ring
  have htwist : (1 - twist p q ^ 2) * twist (p + q) r =
      curve.coefficient * r.x * r.y * (sumX p q * sumY p q) := by
    rw [← x_add, ← y_add]
    unfold twist
    ring
  have htwist' : (1 - twist q r ^ 2) * twist p (q + r) =
      curve.coefficient * p.x * p.y * (sumX q r * sumY q r) := by
    rw [← x_add, ← y_add]
    unfold twist
    ring
  apply mul_left_cancel₀ (mul_ne_zero hne hne')
  calc (1 - twist p q ^ 2) * (1 - twist q r ^ 2) * (sumX (p + q) r * (1 + twist p (q + r)))
      = (1 - twist p q ^ 2) * sumX (p + q) r *
          (1 - twist q r ^ 2 + (1 - twist q r ^ 2) * twist p (q + r)) := by ring
    _ = (1 - twist q r ^ 2) * sumX p (q + r) *
          (1 - twist p q ^ 2 + (1 - twist p q ^ 2) * twist (p + q) r) := by
      rw [hsum, hsum', htwist, htwist']
      clear hsum hsum' htwist htwist' hne hne'
      -- an identity of polynomials modulo the equations of the three points
      unfold sumX sumY twist
      grind
    _ = _ := by ring

theorem x_add_assoc (p q r : curve.Point) : (p + q + r).x = (p + (q + r)).x := by
  apply mul_right_cancel₀ (one_add_twist_ne_zero (p + q) r)
  apply mul_right_cancel₀ (one_add_twist_ne_zero p (q + r))
  rw [x_add, sumX_mul_eq, ← x_add]
  ring

/-- The sum of a point and a point of order four. -/
def turn (p : curve.Point) : curve.Point where
  x := curve.root * p.y
  y := curve.root * p.x
  contains := by
    have hp := p.contains
    unfold Contains at hp ⊢
    linear_combination hp + (p.x ^ 2 - p.y ^ 2 -
      curve.coefficient * p.x ^ 2 * p.y ^ 2 * (curve.root ^ 2 - 1)) * curve.root_sq

theorem add_turn (p q : curve.Point) : p + turn q = turn (p + q) := by
  have hx := x_add p q
  have hy := y_add p q
  have htwist : twist p (turn q) = -twist p q := by
    unfold twist turn
    linear_combination curve.coefficient * p.x * p.y * q.x * q.y * curve.root_sq
  refine (eq_add ?_ ?_).symm
  · rw [htwist]
    unfold sumY at hy
    unfold sumX turn
    linear_combination curve.root * hy
  · rw [htwist]
    unfold sumX at hx
    unfold sumY turn
    linear_combination curve.root * hx

theorem add_assoc' (p q r : curve.Point) : p + q + r = p + (q + r) := by
  ext
  · exact x_add_assoc p q r
  · have hturn := x_add_assoc p q (turn r)
    rw [add_turn, add_turn, add_turn] at hturn
    exact mul_left_cancel₀ curve.root_ne_zero hturn

/-- The points of a curve are a commutative group. -/
instance : AddCommGroup curve.Point where
  add_assoc := add_assoc'
  zero_add := zero_add'
  add_zero p := (add_comm' p 0).trans (zero_add' p)
  neg_add_cancel := neg_add_cancel'
  add_comm := add_comm'
  nsmul := nsmulRec
  zsmul := zsmulRec

end Point

end EdwardsCurve

end KeyTransparency
