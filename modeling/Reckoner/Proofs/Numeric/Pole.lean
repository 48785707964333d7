import Reckoner.Proofs.Numeric.Elementary
import Reckoner.Proofs.Numeric.Factorial
import Reckoner.Proofs.Numeric.Lanczos

/-!
# Gamma at its poles

At zero the sine in the reflection formula is zero, and the quotient is not finite. The other poles
are missed: `pi * z` is rounded and not a multiple of `π`, so the sine there is not zero, and it is
multiplied by a value of Gamma that is large or infinite. The quotient is finite, down to the
arguments where `pi * z` is too large for a double and has no sine.
-/

namespace Reckoner.Numeric

open Binary64
open Float.Model (Format UnpackedFloat)
open Float.Model.UnpackedFloat

-- Powers of natural numbers are the ones of the core library here, whatever else is imported.
attribute [local instance (high)] instPowNat

/-- A double that is infinite or at least `2 ^ k` in magnitude. -/
def Reaches (k : Int) (x : Float) : Prop :=
  ∃ s, AtLeast s k x.toModel.unpack

section Quotient

theorem reaches_of_approximates {y : Float} {r : ℝ} {k : Int} (h : Approximates y r)
    (least : minExponent < k + 1) (lower : 2 ^ (k + 1) ≤ |r|) : Reaches k y := by
  have reached := h.atLeast least lower
  rwa [Int.add_sub_cancel] at reached

variable {x y : Float} {i j k : Int}

theorem Reaches.mul (hx : Reaches i x) (hy : Reaches j y) (least : minExponent ≤ i + j) :
    Reaches (i + j) (x * y) := by
  obtain ⟨s, hx⟩ := hx
  obtain ⟨s', hy⟩ := hy
  exact ⟨s * s', atLeast_mul hx hy least⟩

/-- The digits of `pi`. -/
def piMagnitude : Magnitude :=
  ⟨7074237752028440, -51⟩

theorem canonical_pi : Canonical piMagnitude :=
  ⟨by decide, by decide, by decide, by decide, by decide⟩

theorem value_piMagnitude : piMagnitude.value = 7074237752028440 / 2 ^ 51 := by
  norm_num [Magnitude.value, piMagnitude]

theorem unpack_pi : pi.toModel.unpack =
    .finite .positive piMagnitude.significand piMagnitude.exponent canonical_pi.positive := by
  have bits : pi = .ofModel (.pack (.finite .positive piMagnitude.significand piMagnitude.exponent
      canonical_pi.positive)) := by
    decide +kernel
  rw [bits]
  exact unpack_pack canonical_pi

theorem hasValue_pi : HasValue pi.toModel.unpack piMagnitude.value := by
  rw [unpack_pi]
  exact .finite .positive canonical_pi

theorem Reaches.isFinite_pi_div (h : Reaches k x) (least : -1000 ≤ k) (greatest : k ≤ 1000) :
    (pi / x).isFinite = true := by
  obtain ⟨s, lower⟩ := h
  have upper : |piMagnitude.value| < 2 ^ (2 : Int) := by
    rw [value_piMagnitude]
    norm_num [abs_of_pos]
  have range : minExponent = -1074 := rfl
  exact isFinite_div hasValue_pi upper lower (by omega) (by omega)

end Quotient

section Sine

variable {n : Nat} {v : ℝ}

/-- Near a multiple of `π` the sine is about the distance from it. -/
theorem abs_sin_lower (far : 2 ^ (-60 : Int) ≤ |v - n * Real.pi|) (near : |v - n * Real.pi| ≤ 1) :
    2 ^ (-61 : Int) ≤ |Real.sin v| := by
  have small := Real.pi_lt_d4
  have large := Real.pi_gt_d4
  have shifted : |Real.sin (v - n * Real.pi)| = |Real.sin v| := by
    rw [Real.sin_sub_nat_mul_pi, abs_mul, abs_pow, abs_neg, abs_one, one_pow, one_mul]
  have slope : 1 / 2 ≤ 2 / Real.pi := by
    rw [div_le_div_iff₀ two_pos Real.pi_pos]
    linarith
  calc (2 : ℝ) ^ (-61 : Int) = 1 / 2 * 2 ^ (-60 : Int) := by norm_num
    _ ≤ 2 / Real.pi * |v - n * Real.pi| := mul_le_mul slope far (by positivity) (by positivity)
    _ ≤ |Real.sin (v - n * Real.pi)| := Real.mul_abs_le_abs_sin (by linarith)
    _ = |Real.sin v| := shifted

/-- The multiple of `pi` that is computed for a number at a pole. -/
def multipleOfPi (n : Nat) : UnpackedFloat :=
  roundWithAccuracy Format.binary64 .negative
    (piMagnitude.significand * (naturalMagnitude n).significand)
    (piMagnitude.exponent + (naturalMagnitude n).exponent) .exact

/-- Whether a number keeps its distance from a multiple of `π`, seen from twenty digits of `π`. -/
def missesMultiple (n : Nat) : UnpackedFloat → Bool
  | .finite .negative m e _ =>
      let unit := 2 ^ (-e).toNat
      decide ((2 ^ 52 ≤ m ∧ m < 2 ^ 53 ∧ minExponent ≤ e ∧ e ≤ 0) ∧
        (n * 314159265358979323847 * unit * 2 ^ 60 + 10 ^ 20 * unit ≤ m * 10 ^ 20 * 2 ^ 60 ∨
          m * 10 ^ 20 * 2 ^ 60 + 10 ^ 20 * unit ≤ n * 314159265358979323846 * unit * 2 ^ 60) ∧
        m * 10 ^ 20 ≤ n * 314159265358979323846 * unit + 10 ^ 20 * unit ∧
        n * 314159265358979323847 * unit ≤ m * 10 ^ 20 + 10 ^ 20 * unit)
  | _ => false

theorem missesMultiple_of_small :
    ∀ n ∈ List.range' 1 171, missesMultiple n (multipleOfPi n) = true := by
  decide +kernel

/-- Comparisons of whole numbers with the digits of `π` as distances from a multiple of it. -/
theorem distance_of_digits {m u : Nat} (whole : v * u = m) (unit : 0 < u)
    (far : n * 314159265358979323847 * u * 2 ^ 60 + 10 ^ 20 * u ≤ m * 10 ^ 20 * 2 ^ 60 ∨
      m * 10 ^ 20 * 2 ^ 60 + 10 ^ 20 * u ≤ n * 314159265358979323846 * u * 2 ^ 60)
    (above : m * 10 ^ 20 ≤ n * 314159265358979323846 * u + 10 ^ 20 * u)
    (below : n * 314159265358979323847 * u ≤ m * 10 ^ 20 + 10 ^ 20 * u) :
    2 ^ (-60 : Int) ≤ |v - n * Real.pi| ∧ |v - n * Real.pi| ≤ 1 := by
  have positive : (0 : ℝ) < u := Nat.cast_pos.mpr unit
  have scaled {a b : Nat} {p q : ℝ} (le : a ≤ b) (left : a = p * u) (right : b = q * u) :
      p ≤ q := by
    have real := Nat.cast_le (α := ℝ).mpr le
    rw [left, right] at real
    exact le_of_mul_le_mul_right real positive
  have lower : (n : ℝ) * 3.14159265358979323846 ≤ n * Real.pi :=
    mul_le_mul_of_nonneg_left Real.pi_gt_d20.le (Nat.cast_nonneg n)
  have upper : (n : ℝ) * Real.pi ≤ n * 3.14159265358979323847 :=
    mul_le_mul_of_nonneg_left Real.pi_lt_d20.le (Nat.cast_nonneg n)
  refine ⟨?_, abs_le.mpr ⟨?_, ?_⟩⟩
  · obtain more | less := far
    · have apart : (n : ℝ) * 314159265358979323847 * 2 ^ 60 + 10 ^ 20 ≤ v * 10 ^ 20 * 2 ^ 60 :=
        scaled more (by push_cast; ring) (by push_cast [← whole]; ring)
      exact le_trans (by norm_num; linarith) (le_abs_self _)
    · have apart : v * 10 ^ 20 * 2 ^ 60 + 10 ^ 20 ≤ (n : ℝ) * 314159265358979323846 * 2 ^ 60 :=
        scaled less (by push_cast [← whole]; ring) (by push_cast; ring)
      exact le_trans (by norm_num; linarith) (neg_le_abs _)
  · have close : (n : ℝ) * 314159265358979323847 ≤ v * 10 ^ 20 + 10 ^ 20 :=
      scaled below (by push_cast; ring) (by push_cast [← whole]; ring)
    linarith
  · have close : v * 10 ^ 20 ≤ (n : ℝ) * 314159265358979323846 + 10 ^ 20 :=
      scaled above (by push_cast [← whole]; ring) (by push_cast; ring)
    linarith

theorem of_missesMultiple {f : UnpackedFloat} (h : missesMultiple n f = true) :
    ∃ x, ∃ canonical : Canonical x,
      f = .finite .negative x.significand x.exponent canonical.positive ∧
      2 ^ (-60 : Int) ≤ |(x.value : ℝ) - n * Real.pi| ∧ |(x.value : ℝ) - n * Real.pi| ≤ 1 := by
  cases f with
  | notANumber | infinity | zero => cases h
  | finite s m e pos =>
      cases s with
      | positive => cases h
      | negative =>
          simp only [missesMultiple, decide_eq_true_eq] at h
          obtain ⟨⟨filled, bounded, least, nonpos⟩, far, above, below⟩ := h
          refine ⟨⟨m, e⟩, ⟨pos, bounded, least, by show e ≤ 971; omega, .inr filled⟩, rfl, ?_⟩
          have whole : (Magnitude.mk m e).value * (2 ^ (-e).toNat : Nat) = m := by
            have exponent : e + ((-e).toNat : Int) = 0 := by omega
            rw [Magnitude.value, natCast_two_pow, mul_assoc, ← two_zpow_add, exponent, zpow_zero,
              mul_one]
          exact distance_of_digits (by exact_mod_cast whole) (Nat.two_pow_pos _) far above below

variable {z : Float} {lib : Elementary}

theorem unpack_pole (pos : 0 < n) (small : n < 2 ^ 53) (whole : HasValue z.toModel.unpack (-n)) :
    z.toModel.unpack = .finite .negative (naturalMagnitude n).significand
      (naturalMagnitude n).exponent (canonical_naturalMagnitude pos small).positive := by
  apply whole.eq_of_ne_zero _ (neg_ne_zero.mpr (Nat.cast_ne_zero.mpr (Nat.ne_of_gt pos)))
  rw [← value_naturalMagnitude n]
  exact .finite .negative (canonical_naturalMagnitude pos small)

/-- The sine at a pole from `-1` to `-171` is not tiny. -/
theorem reaches_sine (accurate : lib.Accurate) (pos : 0 < n) (small : n ≤ 171)
    (whole : HasValue z.toModel.unpack (-n)) : Reaches (-62) (lib.sine (pi * z)) := by
  have missed := missesMultiple_of_small n (List.mem_range'_1.mpr ⟨pos, by omega⟩)
  obtain ⟨x, canonical, multiple, far, near⟩ := of_missesMultiple missed
  have product : (pi * z).toModel.unpack = unpack Format.binary64 (pack Format.binary64
      (multipleOfPi n)) := by
    rw [mul_eq_pack, unpack_pi, unpack_pole pos (by omega) whole]
    rfl
  have argument : HasValue (pi * z).toModel.unpack (-x.value) := by
    rw [product, multiple, unpack_pack canonical]
    exact .finite .negative canonical
  have lower : 2 ^ (-61 : Int) ≤ |Real.sin (value (pi * z))| := by
    rw [value_eq argument, Rat.cast_neg, Real.sin_neg, abs_neg]
    exact abs_sin_lower far near
  exact Approximates.atLeast (.inl (accurate.sine _ argument.isFinite)) (by decide) lower

end Sine

section Lanczos

variable {n : Nat} {lib : Elementary}

theorem reaches_sqrt : Reaches 1 (Float.sqrt (2 * pi)) := by
  have finite : (Float.sqrt (2 * pi)).isFinite = true := by decide +kernel
  have two : Float.ofNat 2 ≤ Float.sqrt (2 * pi) := by decide +kernel
  rw [(hasValue_ofNat (by decide)).le_iff (hasValue finite)] at two
  have lower : (2 : ℚ) ^ (1 : Int) ≤ |value (Float.sqrt (2 * pi))| := by
    rw [zpow_one]
    exact two.trans (le_abs_self _)
  exact (hasValue finite).atLeast lower

/-- The base of the power, which the exponential is taken at too. -/
theorem exists_value_base (pos : 0 < n) (small : n ≤ 171) : ∃ b, 1 ≤ b ∧ b ≤ 180 ∧
    HasValue (Float.ofNat n + 7 + 0.5).toModel.unpack b := by
  have seven : Float.ofNat n + 7 = Float.ofNat (n + 7) :=
    ofNat_add (k := 7) pos (by decide) (by omega)
  have first : (1 : ℚ) ≤ n := Nat.one_le_cast.mpr pos
  have last : (n : ℚ) ≤ 171 := by exact_mod_cast small
  rw [seven]
  obtain ⟨b, value, error⟩ := (roundsTo_add (hasValue_ofNat (n := n + 7) (by omega))
    hasValue_half).near 8 (by decide) (by decide)
    (by push_cast; rw [abs_of_pos (by positivity)]; norm_num; linarith)
  push_cast at error
  rw [abs_le] at error
  norm_num at error
  exact ⟨b, by linarith [error.1], by linarith [error.2], value⟩

theorem exists_value_power (small : n ≤ 171) : ∃ c, 0 ≤ c ∧
    HasValue ((Float.ofNat n + 0.5) / 2).toModel.unpack c := by
  have first : (0 : ℚ) ≤ n := Nat.cast_nonneg n
  have last : (n : ℚ) ≤ 171 := by exact_mod_cast small
  obtain ⟨b, sum, error⟩ := (roundsTo_add (hasValue_ofNat (n := n) (by omega))
    hasValue_half).near 8 (by decide) (by decide)
    (by rw [abs_of_pos (by positivity)]; norm_num; linarith)
  rw [abs_le] at error
  norm_num at error
  have half : |b / (2 : Nat)| < 2 ^ (8 : Int) := by
    rw [abs_of_nonneg (div_nonneg (by linarith [error.1]) (by norm_num))]
    norm_num
    linarith [error.2]
  obtain ⟨c, value, error'⟩ := (roundsTo_div sum (hasValue_ofNat (n := 2) (by decide))
    (by norm_num)).near 8 (by decide) (by decide) half
  rw [abs_le] at error'
  norm_num at error'
  exact ⟨c, by linarith [error.1, error'.1], value⟩

theorem exp_lower {b : ℝ} (le : b ≤ 180) : 2 ^ (-360 : Int) ≤ |Real.exp (-b)| := by
  have power : Real.exp 180 ≤ 2 ^ 360 := by
    calc Real.exp 180 = Real.exp 1 ^ 180 := by rw [Real.exp_one_pow, Nat.cast_ofNat]
      _ ≤ (2 ^ 2) ^ 180 :=
          pow_le_pow_left₀ (Real.exp_pos 1).le (Real.exp_one_lt_d9.le.trans (by norm_num)) _
      _ = 2 ^ 360 := (pow_mul 2 2 180).symm
  rw [abs_of_pos (Real.exp_pos _)]
  calc (2 : ℝ) ^ (-360 : Int) = (2 ^ 360)⁻¹ := zpow_neg 2 360
    _ ≤ (Real.exp 180)⁻¹ := inv_anti₀ (Real.exp_pos _) power
    _ = Real.exp (-180) := (Real.exp_neg 180).symm
    _ ≤ Real.exp (-b) := Real.exp_le_exp.mpr (neg_le_neg le)

theorem reaches_lanczos (accurate : lib.Accurate) (pos : 0 < n) (small : n ≤ 171) :
    Reaches (-363) (lanczos lib (Float.ofNat (n + 1))) := by
  obtain ⟨b, one, top, base⟩ := exists_value_base pos small
  obtain ⟨c, nonneg, exponent⟩ := exists_value_power small
  have range : ¬ Float.ofNat (n + 1) > Float.ofNat (maxFactorial + 2) := by
    rw [gt_iff_lt, ofNat_lt_iff (by decide) (by omega), maxFactorial]
    omega
  have shifted : Float.ofNat (n + 1) - 1 = Float.ofNat n := ofNat_sub (k := 1) (by omega) (by omega)
  have power : Reaches (-1) (lib.power (Float.ofNat n + 7 + 0.5) ((Float.ofNat n + 0.5) / 2)) := by
    have positive : 0 < value (Float.ofNat n + 7 + 0.5) := by
      rw [value_eq base]
      linarith
    have near := accurate.power _ _ base.isFinite exponent.isFinite positive
    rw [value_eq base, value_eq exponent] at near
    have real : (1 : ℝ) ≤ (b : ℝ) ^ (c : ℝ) :=
      Real.one_le_rpow (by exact_mod_cast one) (by exact_mod_cast nonneg)
    apply reaches_of_approximates near (by decide)
    show (2 : ℝ) ^ (0 : Int) ≤ _
    rw [zpow_zero]
    exact real.trans (le_abs_self _)
  have exponential : Reaches (-361) (lib.exponential (-(Float.ofNat n + 7 + 0.5))) := by
    have opposite := hasValue_neg base.isFinite
    have near := accurate.exponential _ opposite.isFinite
    rw [value_eq opposite, value_eq base, Rat.cast_neg] at near
    exact reaches_of_approximates near (by decide) (exp_lower (by exact_mod_cast top))
  have series : Reaches (-1) (lanczosSeries (Float.ofNat n)) :=
    ⟨.positive, atLeast_lanczosSeries pos (by omega)⟩
  rw [lanczos, if_neg range]
  simp only [shifted]
  exact (((reaches_sqrt.mul power (by decide)).mul exponential (by decide)).mul power
    (by decide)).mul series (by decide)

end Lanczos

section Pole

variable {n : Nat} {z : Float} {lib : Elementary}

theorem Reaches.value_ne_zero {x : Float} {k : Int} (h : Reaches k x) (finite : x.isFinite = true) :
    value x ≠ 0 := by
  obtain ⟨s, lower⟩ := h
  have number := hasValue finite
  intro zero
  rw [zero] at number
  obtain ⟨s', unpacked⟩ := number.roundsTo.zero rfl
  rw [unpacked] at lower
  cases lower

theorem reaches_of_value_ne_zero {x : Float} (finite : x.isFinite = true) (nonzero : value x ≠ 0) :
    Reaches minExponent x := by
  obtain ⟨s, lower⟩ := (hasValue finite).le_abs_sub (.zero .positive) nonzero
  rw [sub_zero] at lower
  exact ⟨s, (hasValue finite).roundsTo.atLeast s minExponent (Int.le_refl _) lower⟩

theorem gammaWith_pole (whole : HasValue z.toModel.unpack (-n)) :
    gammaWith lib z = pi / (lib.sine (pi * z) * lanczos lib (1 - z)) := by
  have below : z < 0.5 := by
    rw [whole.lt_iff hasValue_half]
    have nonneg : (0 : ℚ) ≤ n := Nat.cast_nonneg n
    linarith
  exact if_pos below

theorem not_isFinite_zero (accurate : lib.Accurate)
    (zero : HasValue z.toModel.unpack (-(0 : Nat))) : (gammaWith lib z).isFinite = false := by
  obtain ⟨s, unpacked⟩ := zero.roundsTo.zero (by rw [Nat.cast_zero, neg_zero])
  have product : HasValue (pi * z).toModel.unpack 0 := by
    rw [mul_eq_pack, unpacked]
    exact hasValue_mul_zero hasValue_pi s
  have sine := hasValue (accurate.sine _ product.isFinite).finite
  rw [accurate.sine_zero _ product.isFinite (value_eq product)] at sine
  obtain ⟨s', nothing⟩ := sine.roundsTo.zero rfl
  rw [gammaWith_pole zero]
  exact not_isFinite_div hasValue_pi (zero_mul_cases nothing _)

theorem not_isFinite_overflow (accurate : lib.Accurate) (whole : HasValue z.toModel.unpack (-n))
    (overflow : (pi * z).isFinite = false) : (gammaWith lib z).isFinite = false := by
  rw [gammaWith_pole whole]
  exact not_isFinite_div hasValue_pi (.inr (isNaN_mul (accurate.sine_infinite _ overflow) _))

theorem one_sub_pole (pos : 0 < n) (small : n < 2 ^ 53) (whole : HasValue z.toModel.unpack (-n)) :
    1 - z = Float.ofNat (n + 1) := by
  apply sub_eq_ofNat hasValue_one whole one_ne_zero
    (neg_ne_zero.mpr (Nat.cast_ne_zero.mpr (Nat.ne_of_gt pos))) small
  push_cast
  ring

/-- From `-1` to `-171` neither the sine nor the value of Gamma is tiny. -/
theorem isFinite_small_pole (accurate : lib.Accurate) (pos : 0 < n) (small : n ≤ 171)
    (whole : HasValue z.toModel.unpack (-n)) : (gammaWith lib z).isFinite = true := by
  rw [gammaWith_pole whole, one_sub_pole pos (by omega) whole]
  exact ((reaches_sine accurate pos small whole).mul (reaches_lanczos accurate pos small)
    (by decide)).isFinite_pi_div (by decide) (by decide)

theorem large_lt_one_sub (large : 172 ≤ n) (whole : HasValue z.toModel.unpack (-n)) :
    Float.ofNat (maxFactorial + 2) < 1 - z := by
  obtain small | huge := Nat.lt_or_ge n (2 ^ 53)
  · rw [one_sub_pole (by omega) small whole, ofNat_lt_iff (by decide) small, maxFactorial]
    omega
  · have huge' : (2 : ℚ) ^ (53 : Int) ≤ n := by exact_mod_cast huge
    have lower : AtLeast .positive 53 (1 - z).toModel.unpack := by
      apply (roundsTo_sub hasValue_one whole).atLeast .positive 53 (by decide)
      rw [signed]
      linarith
    exact lt_of_atLeast lower (hasValue_ofNat (by decide)) (by norm_num [maxFactorial])

/-- From `-172` on Gamma is infinite where the reflection formula takes it, and the sine is not
zero. -/
theorem isFinite_large_pole (accurate : lib.Accurate) (large : 172 ≤ n)
    (whole : HasValue z.toModel.unpack (-n)) (finite : (pi * z).isFinite = true) :
    (gammaWith lib z).isFinite = true := by
  have infinite : lanczos lib (1 - z) = 1 / 0 := if_pos (large_lt_one_sub large whole)
  have pole : Reaches 0 z := by
    apply whole.atLeast
    rw [zpow_zero, abs_neg, Nat.abs_cast, Nat.one_le_cast]
    omega
  have reached : Reaches 1 pi := by
    apply hasValue_pi.atLeast
    rw [value_piMagnitude]
    norm_num [abs_of_pos]
  have sine := accurate.sine_ne_zero _ finite
    ((reached.mul pole (by decide)).value_ne_zero finite)
  have factor : Reaches 1000 (1 / 0) := ⟨.positive, unpack_one_div_zero ▸ .infinity⟩
  rw [gammaWith_pole whole, infinite]
  exact ((reaches_of_value_ne_zero (accurate.sine _ finite).finite sine).mul factor
    (by decide)).isFinite_pi_div (by decide) (by decide)

end Pole

/-- With an accurate library, Gamma is not finite at a pole exactly if this is zero or its product
with `pi` is too large for a double. -/
theorem gamma_pole_not_finite_iff (lib : Elementary) (accurate : lib.Accurate) (z : Float) (n : Nat)
    (finite : z.isFinite = true) (whole : value z = -n) :
    (gammaWith lib z).isFinite = false ↔ n = 0 ∨ (pi * z).isFinite = false := by
  have number := hasValue finite
  rw [whole] at number
  obtain rfl | pos := Nat.eq_zero_or_pos n
  · exact iff_of_true (not_isFinite_zero accurate number) (.inl rfl)
  · cases overflow : (pi * z).isFinite with
    | false => exact iff_of_true (not_isFinite_overflow accurate number overflow) (.inr rfl)
    | true =>
        have result : (gammaWith lib z).isFinite = true := by
          obtain small | large := Nat.lt_or_ge n 172
          · exact isFinite_small_pole accurate pos (by omega) number
          · exact isFinite_large_pole accurate large number overflow
        rw [result]
        exact iff_of_false Bool.true_eq_false.mp (by simp [Nat.ne_of_gt pos])

/-- The first pole below zero is missed. -/
theorem gamma_pole_not_finite_iff_first : Elementary.nearby.Accurate ∧
    (-Float.ofNat 1).isFinite = true ∧ value (-Float.ofNat 1) = -(1 : Nat) ∧
      (gammaWith Elementary.nearby (-Float.ofNat 1)).isFinite = true := by
  have pole := hasValue_neg_ofNat (n := 1) (by decide)
  have range : (pi * -Float.ofNat 1).isFinite = true := by decide +kernel
  have account := gamma_pole_not_finite_iff .nearby Elementary.accurate_nearby (-Float.ofNat 1) 1
    pole.isFinite (value_eq pole)
  refine ⟨Elementary.accurate_nearby, pole.isFinite, value_eq pole, ?_⟩
  apply eq_true_of_ne_false
  intro infinite
  obtain one | overflow := account.mp infinite
  · exact absurd one (by decide)
  · rw [range] at overflow
    cases overflow

/-- At `-200` Gamma is finite, with functions that are accurate. -/
theorem gamma_finite_at_pole : Elementary.nearby.Accurate ∧
    (-Float.ofNat 200).isFinite = true ∧ value (-Float.ofNat 200) = -(200 : Nat) ∧
      (gammaWith Elementary.nearby (-Float.ofNat 200)).isFinite = true := by
  have pole := hasValue_neg_ofNat (n := 200) (by decide)
  refine ⟨Elementary.accurate_nearby, pole.isFinite, value_eq pole, ?_⟩
  exact isFinite_large_pole Elementary.accurate_nearby (by decide) pole (by decide +kernel)

end Reckoner.Numeric
