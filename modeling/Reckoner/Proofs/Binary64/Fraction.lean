import Reckoner.Proofs.Binary64.Natural

/-!
# The fractional part of a double

What is left of a double without its whole part is computed by a subtraction, and it is zero exactly
for the integers: no rounding takes a small remainder for zero.
-/

namespace Reckoner.Binary64

open Float.Model (Format UnpackedFloat)
open Float.Model.UnpackedFloat

-- Powers of natural numbers are the ones of the core library here, whatever else is imported.
attribute [local instance (high)] instPowNat

/-- A double rounded towards zero. Doubles with an exponent from zero up have no fractional part,
and what is not finite is left alone. -/
def truncate (x : Float) : Float :=
  if x.isFinite = true ∧ (magnitude x).exponent < 0 then
    let whole := Float.ofNat (magnitude x).floor
    if isNegative x then -whole else whole
  else x

/-- The part of a double after the point. -/
def fract (x : Float) : Float :=
  x - truncate x

section Integers

variable {m : Magnitude} {x : Float}

theorem Magnitude.value_eq_floor_iff :
    m.value = m.floor ↔ m.isInteger = true := by
  have denominator : (m.ratio.2 : ℚ) ≠ 0 := Nat.cast_ne_zero.mpr (Nat.ne_of_gt (Nat.two_pow_pos _))
  rw [← mul_left_inj' denominator, m.value_mul_denominator, ← Nat.cast_mul, Nat.cast_inj,
    Magnitude.isInteger, beq_iff_eq, Magnitude.floor, ← Nat.dvd_iff_mod_eq_zero,
    Nat.dvd_iff_div_mul_eq]
  exact eq_comm

theorem Magnitude.isInteger_iff (m : Magnitude) :
    m.isInteger = true ↔ ∃ n : Nat, m.value = n := by
  refine ⟨fun whole => ⟨m.floor, Magnitude.value_eq_floor_iff.mpr whole⟩, ?_⟩
  rintro ⟨n, value⟩
  rw [Magnitude.isInteger, ratio_of_value value, Nat.mul_mod_left]
  rfl

theorem Magnitude.isInteger_of_exponent (nonneg : 0 ≤ m.exponent) : m.isInteger = true := by
  have denominator : m.ratio.2 = 1 := by
    show 2 ^ (-m.exponent).toNat = 1
    rw [Int.toNat_of_nonpos (by omega), Nat.pow_zero]
  rw [Magnitude.isInteger, denominator, Nat.mod_one]
  rfl

/-- The integers among the doubles. -/
theorem isInteger_iff : isInteger x = true ↔ x.isFinite = true ∧ ∃ n : Int, value x = n := by
  rw [isInteger, Bool.and_eq_true, (magnitude x).isInteger_iff]
  apply and_congr_right'
  constructor
  · rintro ⟨n, whole⟩
    rw [value, whole]
    split
    · exact ⟨-n, (Int.cast_neg _).symm⟩
    · exact ⟨n, rfl⟩
  · rintro ⟨n, whole⟩
    exact ⟨n.natAbs, by rw [← abs_value, whole, Nat.cast_natAbs, Int.cast_abs]⟩

theorem lt_zero_iff (finite : x.isFinite = true) : x < 0 ↔ value x < 0 :=
  (hasValue finite).lt_iff hasValue_zero

/-- The negative integers among the doubles. -/
theorem isInteger_neg_iff : isInteger x = true ∧ x < 0 ↔
    x.isFinite = true ∧ ∃ n : Nat, 0 < n ∧ value x = -n := by
  rw [isInteger_iff]
  constructor
  · rintro ⟨⟨finite, n, whole⟩, less⟩
    rw [lt_zero_iff finite, whole, Int.cast_lt_zero] at less
    refine ⟨finite, n.natAbs, by omega, ?_⟩
    rw [whole, ← Int.cast_natCast, ← Int.cast_neg]
    congr 1
    omega
  · rintro ⟨finite, n, pos, whole⟩
    refine ⟨⟨finite, -n, by rw [whole]; push_cast; rfl⟩, ?_⟩
    rw [lt_zero_iff finite, whole]
    exact neg_neg_of_pos (Nat.cast_pos.mpr pos)

end Integers

section Fractions

variable {x : Float}

theorem sub_self_of_not_finite (infinite : x.isFinite = false) : (x - x == 0) = false := by
  have unpacked : x.toModel.unpack.isFinite = false := infinite
  have nan : UnpackedFloat.sub Format.binary64 x.toModel.unpack x.toModel.unpack =
      .notANumber := by
    generalize x.toModel.unpack = f at unpacked
    cases f with
    | notANumber => rfl
    | infinity s => cases s <;> rfl
    | zero | finite => cases unpacked
  rw [sub_eq_pack, nan]
  rfl

theorem value_truncate (finite : x.isFinite = true) : (truncate x).isFinite = true ∧
    value (truncate x) =
      if isNegative x then -((magnitude x).floor : ℚ) else (magnitude x).floor := by
  by_cases fraction : (magnitude x).exponent < 0
  · have bounded : (magnitude x).floor ≤ 2 ^ 53 := by
      have digits := (fits_magnitude finite).bounded
      rw [Magnitude.floor, Magnitude.ratio, Int.toNat_of_nonpos fraction.le, Nat.pow_zero,
        Nat.mul_one]
      exact (Nat.div_le_self _ _).trans digits.le
    have whole := isFinite_ofNat bounded
    have negated := hasValue_neg whole
    simp only [truncate, if_pos (And.intro finite fraction)]
    split
    · exact ⟨negated.isFinite, by rw [value_eq negated, value_ofNat bounded]⟩
    · exact ⟨whole, value_ofNat bounded⟩
  · have whole := Magnitude.isInteger_of_exponent (Int.not_lt.mp fraction)
    rw [truncate, if_neg fun h => fraction h.2, ← Magnitude.value_eq_floor_iff.mpr whole]
    exact ⟨finite, rfl⟩

/-- A double is an integer exactly if nothing is left without its whole part. -/
theorem fract_beq_zero (x : Float) : (fract x == 0) = isInteger x := by
  cases finite : x.isFinite with
  | false =>
      rw [fract, truncate, if_neg (by simp [finite]), sub_self_of_not_finite finite, isInteger,
        finite]
      rfl
  | true =>
      obtain ⟨whole, digits⟩ := value_truncate finite
      rw [Bool.eq_iff_iff, fract, sub_beq_zero_iff finite whole, digits, isInteger, finite,
        Bool.true_and, ← Magnitude.value_eq_floor_iff, value]
      split
      · exact neg_inj (a := (magnitude x).value)
      · exact Iff.rfl

end Fractions

end Reckoner.Binary64
