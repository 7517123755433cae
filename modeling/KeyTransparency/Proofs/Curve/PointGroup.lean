import KeyTransparency.Curve.PointGroup
import Mathlib.Algebra.Group.Defs
import Mathlib.Algebra.Group.Basic
import Mathlib.Tactic.Abel

/-!
# Points that stand for the elements of a group

Points are data, and several of them can stand for one element of a commutative group, as the
coordinates of a point do that are known up to a factor only.  Operations on points that keep to
the laws of the group in this sense take multiples of points to multiples of elements.
-/

namespace KeyTransparency

/-! ## Doubling along the bits of a number -/

theorem two_mul_half_add_testBit (n : Nat) : 2 * (n / 2) + (n.testBit 0).toNat = n := by
  rw [Nat.testBit_zero]
  rcases Nat.mod_two_eq_zero_or_one n with h | h
  · simp [h]
    omega
  · simp [h]
    omega

/-- What each step of a computation along the bits of a number keeps, from the highest bit down,
holds of the whole number in the end. -/
theorem foldr_testBit {α : Type} {R : Nat → α → Prop} {step : Bool → α → α} {start : α}
    (hstart : R 0 start) (hstep : ∀ bit n a, R n a → R (2 * n + bit.toNat) (step bit a))
    {width n : Nat} (hn : n < 2 ^ width) :
    R n ((List.range width).foldr (fun bit => step (n.testBit bit)) start) := by
  induction width generalizing n with
  | zero =>
    obtain rfl : n = 0 := by simpa using hn
    exact hstart
  | succ width ih =>
    have hhalf : n / 2 < 2 ^ width := by
      rw [Nat.pow_succ] at hn
      omega
    have hhigh := hstep (n.testBit 0) _ _ (ih hhalf)
    rw [two_mul_half_add_testBit] at hhigh
    rw [List.range_succ_eq_map, List.foldr_cons, List.foldr_map]
    simpa only [Nat.succ_eq_add_one, Nat.testBit_add_one] using hhigh

theorem foldr_testBit_log2 {α : Type} (R : Nat → α → Prop) (step : Bool → α → α) {start : α}
    (hstart : R 0 start) (hstep : ∀ bit n a, R n a → R (2 * n + bit.toNat) (step bit a)) (n : Nat) :
    R n ((List.range (n.log2 + 1)).foldr (fun bit => step (n.testBit bit)) start) :=
  foldr_testBit hstart hstep Nat.lt_log2_self

namespace PointGroup

/-! ## The laws of a group -/

theorem mod_order_nsmul {G : PointGroup} {A : Type} [AddCommGroup A] {a : A}
    (h : G.order • a = 0) (n : Nat) : (n % G.order) • a = n • a := by
  conv_rhs => rw [← Nat.mod_add_div n G.order, add_nsmul, mul_nsmul, h, nsmul_zero, add_zero]

/-- If sums of points stand for sums, multiples of a point stand for multiples. -/
theorem stands_smul {G : PointGroup} {A : Type} [AddCommGroup A] {stands : G.Point → A → Prop}
    (hzero : stands G.zero 0)
    (hadd : ∀ {p q : G.Point} {a b : A}, stands p a → stands q b → stands (G.add p q) (a + b))
    {p : G.Point} {a : A} (n : Nat) (hp : stands p a) : stands (G.smul n p) (n • a) := by
  refine foldr_testBit_log2 (fun n p => stands p (n • a))
    (fun bit sum => if bit then G.add (G.add sum sum) p else G.add sum sum) ?_ ?_ n
  · rw [zero_nsmul]
    exact hzero
  · intro bit n sum hsum
    have hdouble := hadd hsum hsum
    rw [← two_nsmul, ← mul_nsmul'] at hdouble
    cases bit with
    | false => exact hdouble
    | true =>
      rw [Bool.toNat_true, succ_nsmul]
      exact hadd hdouble hp

/-- The operations on points are those of a commutative group, for whose elements the points stand.
Points that stand for the same element are written alike, and what is written is read back. -/
structure Presents (G : PointGroup) {A : Type} [AddCommGroup A] (stands : G.Point → A → Prop) :
    Prop where
  zero : stands G.zero 0
  add {p q : G.Point} {a b : A} : stands p a → stands q b → stands (G.add p q) (a + b)
  neg {p : G.Point} {a : A} : stands p a → stands (G.neg p) (-a)
  base : ∃ a, stands G.base a ∧ G.order • a = 0
  cofactor (a : A) : G.order • G.cofactor • a = 0
  encode {p q : G.Point} {a : A} : stands p a → stands q a → G.encode p = G.encode q
  decode {written : Octets 32} {p : G.Point} : G.decode? written = some p → ∃ a, stands p a
  decode_encode {p : G.Point} {a : A} :
    stands p a → ∃ q, G.decode? (G.encode p) = some q ∧ stands q a
  order_pos : 0 < G.order
  order_le : G.order ≤ 2 ^ 256

namespace Presents

variable {G : PointGroup} {A : Type} [AddCommGroup A] {stands : G.Point → A → Prop}
  (h : G.Presents stands) {p q : G.Point} {a b : A}
include h

theorem smul (n : Nat) (hp : stands p a) : stands (G.smul n p) (n • a) :=
  stands_smul h.zero h.add n hp

theorem sub (hp : stands p a) (hq : stands q b) : stands (G.sub p q) (a - b) := by
  rw [sub_eq_add_neg]
  exact h.add hp (h.neg hq)

theorem clearCofactor (hp : stands p a) : stands (G.clearCofactor p) (G.cofactor • a) :=
  h.smul G.cofactor hp

end Presents

end PointGroup

end KeyTransparency
