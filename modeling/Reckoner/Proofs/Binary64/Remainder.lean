import Reckoner.Binary64.Remainder
import Reckoner.Proofs.Binary64.Writing

/-!
# The remainder is exact

A remainder has no more digits than the dividend or the divisor, so it is a double and nothing is
rounded. It is smaller than the divisor, has the sign of the dividend and differs from it by a
multiple of the divisor. There is one such double.
-/

namespace Reckoner.Binary64

-- Powers of natural numbers are the ones of the core library here, whatever else is imported.
attribute [local instance (high)] instPowNat

variable {a b : Magnitude} {x y r : Float}

/-- The remainder of two magnitudes is less than the divisor, and what was taken out are whole
multiples of it. -/
theorem Magnitude.remainder_spec (a : Magnitude) (pos : 0 < b.value) :
    (a.remainder b).value < b.value ∧ ∃ n : Nat, a.value = n * b.value + (a.remainder b).value := by
  let e := min a.exponent b.exponent
  let m := a.significand * 2 ^ (a.exponent - e).toNat
  let d := b.significand * 2 ^ (b.exponent - e).toNat
  have aligned (m : Magnitude) (le : e ≤ m.exponent) :
      m.value = (m.significand * 2 ^ (m.exponent - e).toNat : Nat) * 2 ^ e := by
    have exponent : m.exponent - ((m.exponent - e).toNat : Nat) = e := by omega
    rw [← m.value_widen (m.exponent - e).toNat, value, widen, exponent]
  have dividend : a.value = m * 2 ^ e := aligned a (min_le_left _ _)
  have divisor : b.value = d * 2 ^ e := aligned b (min_le_right _ _)
  have rest : (a.remainder b).value = (m % d : Nat) * 2 ^ e := rfl
  have scale := two_zpow_pos e
  rw [divisor] at pos ⊢
  rw [rest, dividend]
  have positive : 0 < d := Nat.cast_pos.mp (pos_of_mul_pos_left pos scale.le)
  refine ⟨mul_lt_mul_of_pos_right (Nat.cast_lt.mpr (Nat.mod_lt m positive)) scale, m / d, ?_⟩
  rw [← mul_assoc, ← add_mul]
  congr 1
  exact_mod_cast (Nat.div_add_mod' m d).symm

theorem Magnitude.Fits.remainder (ha : a.Fits) (hb : b.Fits) (pos : 0 < b.significand) :
    (a.remainder b).Fits := by
  obtain ⟨ha, leastA, greatestA⟩ := ha
  obtain ⟨hb, leastB, greatestB⟩ := hb
  refine ⟨?_, le_min leastA leastB, (min_le_left _ _).trans greatestA⟩
  rw [Magnitude.remainder]
  rcases le_total a.exponent b.exponent with le | le
  · rw [min_eq_left le, sub_self, Int.toNat_zero, Nat.pow_zero, Nat.mul_one]
    exact (Nat.mod_le _ _).trans_lt ha
  · rw [min_eq_right le, sub_self, Int.toNat_zero, Nat.pow_zero, Nat.mul_one]
    exact (Nat.mod_lt _ pos).trans hb

/-- What is left of `x` after taking out whole multiples of `y`, as many of them as possible. -/
structure IsRemainder (x y r : Float) : Prop where
  finite : r.isFinite = true
  sign : isNegative r = isNegative x
  less : |value r| < |value y|
  multiple : ∃ n : Int, value x = n * value y + value r

theorem remainder_of_ne_zero (hx : x.isFinite = true) (hy : y.isFinite = true)
    (nonzero : value y ≠ 0) :
    remainder x y =
      let rest := ((magnitude x).remainder (magnitude y)).toFloat
      if isNegative x then -rest else rest := by
  have kinds := isFinite_eq x
  have kinds' := isFinite_eq y
  have divisor := (beq_zero_iff hy).not.mpr nonzero
  simp_all [remainder]

theorem isRemainder_remainder (hx : x.isFinite = true) (hy : y.isFinite = true)
    (nonzero : value y ≠ 0) : IsRemainder x y (remainder x y) := by
  have size : (magnitude y).value = |value y| := (abs_value y).symm
  have pos : 0 < (magnitude y).value := size ▸ abs_pos.mpr nonzero
  have fits := (fits_magnitude hx).remainder (fits_magnitude hy) (significand_pos nonzero)
  obtain ⟨less, n, multiple⟩ := Magnitude.remainder_spec (magnitude x) pos
  obtain ⟨has, sign⟩ := fits.hasValue_toFloat
  obtain ⟨finite, signed, number⟩ := signed_double has sign (isNegative x)
  rw [← remainder_of_ne_zero hx hy nonzero] at finite signed number
  generalize (magnitude x).remainder (magnitude y) = m at less multiple number
  refine ⟨finite, signed, ?_, ?_⟩
  · rwa [number, abs_ite_neg _ m.value_nonneg, ← size]
  · -- Both signs may differ from those of the magnitudes.
    obtain ⟨k, unit⟩ : ∃ k : Int, (magnitude y).value = k * value y := by
      rw [value]
      split
      · exact ⟨-1, by simp⟩
      · exact ⟨1, by simp⟩
    rw [number, value, multiple, unit]
    split
    · exact ⟨-(n * k), by push_cast; ring⟩
    · exact ⟨n * k, by push_cast; ring⟩

theorem IsRemainder.unique {r' : Float} (h : IsRemainder x y r) (h' : IsRemainder x y r') :
    r = r' := by
  obtain ⟨finite, sign, less, n, multiple⟩ := h
  obtain ⟨finite', sign', less', n', multiple'⟩ := h'
  have gap : value r - value r' = ((n' - n : Int) : ℚ) * value y := by
    push_cast
    linarith
  -- Both lie on one side of zero, so they are less than the divisor apart.
  have near : |value r - value r'| < |value y| := by
    have apart := abs_sub_lt_of_nonneg_of_lt (abs_nonneg _) less (abs_nonneg _) less'
    rw [value_eq_signed_abs r, value_eq_signed_abs r', sign, sign']
    split
    · rwa [neg_sub_neg, abs_sub_comm]
    · exact apart
  rw [gap, abs_mul] at near
  have few := lt_of_mul_lt_mul_right (near.trans_eq (one_mul _).symm) (abs_nonneg _)
  rw [← Int.cast_abs, ← Int.cast_one, Int.cast_lt, Int.abs_lt_one_iff] at few
  rw [few, Int.cast_zero, zero_mul, sub_eq_zero] at gap
  exact eq_of_value_eq finite finite' (sign.trans sign'.symm) gap

/-- The remainder by a finite divisor. -/
theorem remainder_eq_iff (hx : x.isFinite = true) (hy : y.isFinite = true)
    (nonzero : value y ≠ 0) : remainder x y = r ↔ IsRemainder x y r :=
  ⟨fun same => same ▸ isRemainder_remainder hx hy nonzero,
    (isRemainder_remainder hx hy nonzero).unique⟩

/-- An infinite divisor leaves the dividend as it is. -/
theorem remainder_of_isInf (hx : x.isFinite = true) (hy : y.isInf = true) : remainder x y = x := by
  have kinds := isFinite_eq x
  have number := isNaN_of_isInf hy
  have nonzero : (y == 0) = false := by
    obtain ⟨s, infinite⟩ := unpack_of_isInf hy
    rw [Bool.eq_false_iff, ne_eq, beq_iff_compare, infinite, unpack_zero]
    cases s <;> decide
  simp_all [remainder]

/-- There is no remainder of what is not finite and none by zero. -/
theorem isNaN_remainder (undefined : x.isFinite = false ∨ y.isNaN = true ∨ (y == 0) = true) :
    (remainder x y).isNaN = true := by
  have outside : (x.isNaN || x.isInf || y.isNaN || y == 0) = true := by
    rw [isFinite_eq, Bool.not_eq_false'] at undefined
    rwa [Bool.or_eq_true, Bool.or_eq_true, or_assoc]
  rw [remainder, if_pos outside]
  decide +kernel

/-- Otherwise there is one, and it is finite. -/
theorem isFinite_remainder (hx : x.isFinite = true) (number : y.isNaN = false)
    (nonzero : (y == 0) = false) : (remainder x y).isFinite = true := by
  cases inf : y.isInf with
  | true => rwa [remainder_of_isInf hx inf]
  | false =>
      have hy : y.isFinite = true := by rw [isFinite_eq, number, inf]; rfl
      have divisor := mt (beq_zero_iff hy).mpr (Bool.eq_false_iff.mp nonzero)
      exact (isRemainder_remainder hx hy divisor).finite

end Reckoner.Binary64
