import KeyTransparency.Curve.Edwards25519
import KeyTransparency.Proofs.Curve.PointGroup
import Mathlib.FieldTheory.Finite.Basic
import Mathlib.Tactic.NormNum.Prime

/-!
# The primes behind the curve

The modulus of the coordinates and the order of the base point are prime.  Both are shown by
Pocklington's criterion: if some prime factors of `n - 1` have a product above the square root of
`n`, and a power of some number shows that each of them divides the predecessor of every prime
factor of `n`, then `n` has no prime factor up to its square root.  The factors are smaller primes
that are shown in the same way.
-/

namespace KeyTransparency.Primes

/-! ## Pocklington's criterion -/

/-- A power modulo a number, by squaring along the bits of the exponent. -/
def powMod (n base exponent : Nat) : Nat :=
  (List.range (exponent.log2 + 1)).foldr
    (fun bit power =>
      let square := power * power % n
      if exponent.testBit bit then square * base % n else square)
    1

theorem cast_powMod (n base exponent : Nat) :
    (powMod n base exponent : ZMod n) = (base : ZMod n) ^ exponent := by
  refine foldr_testBit_log2 (fun e (power : Nat) => (power : ZMod n) = (base : ZMod n) ^ e)
    (fun bit power => if bit then power * power % n * base % n else power * power % n)
    ?_ ?_ exponent
  · simp
  · intro bit e power hpower
    cases bit with
    | false => simp [hpower, two_mul, pow_add]
    | true => simp [hpower, two_mul, pow_add]

/-- A number that is said to be prime, and some prime factors of its predecessor. -/
structure Entry where
  number : Nat
  factors : List Nat

/-- Whether powers of two show that a number is prime, if the factors are. -/
def Entry.check (known : List Nat) (entry : Entry) : Bool :=
  let n := entry.number
  decide (1 < n ∧ n < entry.factors.prod * entry.factors.prod) && decide entry.factors.Nodup &&
    powMod n 2 (n - 1) == 1 &&
    entry.factors.all fun q =>
      known.contains q && (n - 1) % q == 0 &&
        Nat.gcd (powMod n 2 ((n - 1) / q) + (n - 1)) n == 1

/-- Whether each number of a list is shown to be prime by those before it. -/
def checkAll (known : List Nat) : List Entry → Bool
  | [] => true
  | entry :: rest => entry.check known && checkAll (entry.number :: known) rest

/-- The prime of which a power is no root of one divides the predecessor of every prime factor. -/
theorem dvd_pred_of_pow {n q r : Nat} {a : ZMod n} (hn : 1 < n) (hq : q.Prime) (hdvd : q ∣ n - 1)
    (hpow : a ^ (n - 1) = 1) (hunit : IsUnit (a ^ ((n - 1) / q) - 1)) (hr : r.Prime)
    (hrn : r ∣ n) : q ∣ r - 1 := by
  have := Fact.mk hr
  let f := ZMod.castHom hrn (ZMod r)
  have hone : f a ^ (n - 1) = 1 := by rw [← map_pow, hpow, map_one]
  have hne : f a ^ ((n - 1) / q) ≠ 1 := by
    intro h
    have hzero := hunit.map f
    rw [map_sub, map_pow, h, map_one, sub_self] at hzero
    exact not_isUnit_zero hzero
  have horder : q ∣ orderOf (f a) := by
    by_contra hndvd
    apply hne
    apply orderOf_dvd_iff_pow_eq_one.mp
    have hcoprime : (orderOf (f a)).Coprime q := ((Nat.Prime.coprime_iff_not_dvd hq).mpr hndvd).symm
    apply hcoprime.dvd_of_dvd_mul_left
    rw [Nat.mul_div_cancel' hdvd]
    exact orderOf_dvd_of_pow_eq_one hone
  refine horder.trans (orderOf_dvd_of_pow_eq_one (ZMod.pow_card_sub_one_eq_one ?_))
  intro hzero
  rw [hzero, zero_pow (by omega)] at hone
  exact zero_ne_one hone

/-- A number is prime if the predecessors of its prime factors have a common divisor above its
square root. -/
theorem prime_of_dvd_pred {n d : Nat} (hn : 1 < n) (hd : n < d * d)
    (h : ∀ r, r.Prime → r ∣ n → d ∣ r - 1) : n.Prime := by
  by_contra hcomposite
  have hr := Nat.minFac_prime (Nat.ne_of_gt hn)
  have hle := Nat.le_of_dvd (Nat.sub_pos_of_lt hr.one_lt) (h _ hr (Nat.minFac_dvd n))
  have hsmall := Nat.minFac_sq_le_self (Nat.lt_of_succ_lt hn) hcomposite
  have hsquare : d * d ≤ n.minFac ^ 2 := by
    rw [pow_two]
    exact Nat.mul_le_mul (by omega) (by omega)
  omega

theorem prod_dvd_of_nodup {primes : List Nat} {m : Nat} (hdistinct : primes.Nodup)
    (hprime : ∀ q ∈ primes, q.Prime) (hdvd : ∀ q ∈ primes, q ∣ m) : primes.prod ∣ m := by
  induction primes with
  | nil => simp
  | cons q rest ih =>
    obtain ⟨hnew, hrest⟩ := List.nodup_cons.mp hdistinct
    obtain ⟨hq, hprimes⟩ := List.forall_mem_cons.mp hprime
    obtain ⟨hqm, hdvds⟩ := List.forall_mem_cons.mp hdvd
    have hcoprime : q.Coprime rest.prod := by
      refine Nat.coprime_list_prod_right_iff.mpr fun q' hmem => ?_
      refine (Nat.coprime_primes hq (hprimes q' hmem)).mpr ?_
      rintro rfl
      exact hnew hmem
    rw [List.prod_cons]
    exact hcoprime.mul_dvd_of_dvd_of_dvd hqm (ih hrest hprimes hdvds)

theorem Entry.prime_of_check {known : List Nat} {entry : Entry}
    (hknown : ∀ q ∈ known, q.Prime) (h : entry.check known = true) : entry.number.Prime := by
  simp only [check, Bool.and_eq_true, decide_eq_true_eq, beq_iff_eq, List.all_eq_true,
    List.contains_iff_mem] at h
  obtain ⟨⟨⟨⟨hn, hproduct⟩, hdistinct⟩, hpow⟩, hfactors⟩ := h
  have hprime : ∀ q ∈ entry.factors, q.Prime := fun q hq => hknown q (hfactors q hq).1.1
  refine prime_of_dvd_pred hn hproduct fun r hr hrn => prod_dvd_of_nodup hdistinct hprime ?_
  intro q hq
  obtain ⟨⟨-, hmod⟩, hgcd⟩ := hfactors q hq
  have hone : ((2 : Nat) : ZMod entry.number) ^ (entry.number - 1) = 1 := by
    rw [← cast_powMod, hpow, Nat.cast_one]
  refine dvd_pred_of_pow hn (hprime q hq) (Nat.dvd_of_mod_eq_zero hmod) hone ?_ hr hrn
  have hunit := (ZMod.isUnit_iff_coprime _ _).mpr hgcd
  rwa [Nat.cast_add, Nat.cast_sub hn.le, cast_powMod, ZMod.natCast_self, Nat.cast_one,
    zero_sub, ← sub_eq_add_neg] at hunit

theorem prime_of_checkAll {known : List Nat} {entries : List Entry}
    (hknown : ∀ q ∈ known, q.Prime) (h : checkAll known entries = true) :
    ∀ entry ∈ entries, entry.number.Prime := by
  induction entries generalizing known with
  | nil => nofun
  | cons entry rest ih =>
    obtain ⟨hentry, hrest⟩ := Bool.and_eq_true_iff.mp h
    have hprime := entry.prime_of_check hknown hentry
    exact List.forall_mem_cons.mpr
      ⟨hprime, ih (List.forall_mem_cons.mpr ⟨hprime, hknown⟩) hrest⟩

/-! ## The modulus and the order -/

def smallPrimes : List Nat := [127, 4153, 430751, 531581, 569003, 1224481, 8574133]

theorem prime_of_mem_smallPrimes : ∀ q ∈ smallPrimes, q.Prime := by
  norm_num [smallPrimes]

/-- The modulus and the order, after the larger primes that show that they are prime. -/
def entries : List Entry :=
  [⟨2773320623, [569003]⟩,
    ⟨72106336199, [2773320623]⟩,
    ⟨1919519569386763, [8574133, 127]⟩,
    ⟨75445702479781427272750846543864801, [1919519569386763, 72106336199]⟩,
    ⟨31757755568855353, [430751, 4153]⟩,
    ⟨74058212732561358302231226437062788676166966415465897661863160754340907,
      [75445702479781427272750846543864801, 31757755568855353]⟩,
    ⟨Edwards25519.modulus,
      [74058212732561358302231226437062788676166966415465897661863160754340907]⟩,
    ⟨1257559732178653, [1224481, 531581]⟩,
    ⟨4434155615661930479, [1257559732178653]⟩,
    ⟨172054593956031949258510691, [4434155615661930479]⟩,
    ⟨19757330305831588566944191468367130476339, [172054593956031949258510691]⟩,
    ⟨276602624281642239937218680557139826668747, [19757330305831588566944191468367130476339]⟩,
    ⟨Edwards25519.baseOrder, [276602624281642239937218680557139826668747]⟩]

theorem checkAll_entries : checkAll smallPrimes entries = true := by
  decide +kernel

theorem prime_of_mem_entries {n : Nat} (h : n ∈ entries.map (·.number)) : n.Prime := by
  obtain ⟨entry, hentry, rfl⟩ := List.mem_map.mp h
  exact prime_of_checkAll prime_of_mem_smallPrimes checkAll_entries entry hentry

end KeyTransparency.Primes

namespace KeyTransparency.Edwards25519

theorem prime_modulus : modulus.Prime := Primes.prime_of_mem_entries (by simp [Primes.entries])

theorem prime_baseOrder : baseOrder.Prime := Primes.prime_of_mem_entries (by simp [Primes.entries])

end KeyTransparency.Edwards25519
