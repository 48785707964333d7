import Reckoner.Numeric.Gamma
import Reckoner.Proofs.Binary64.Arithmetic

/-!
# Accurate elementary functions

The sine, the power and the exponential come from the mathematical library, of which no more is
known than its documentation promises: a result is within one unit of its last place of the true
one, or infinite where the true one is too large. The sine has its exact zeros, it is zero nowhere
else, and at the infinities it is not a number. A library that rounds the true results has these
properties.
-/

namespace Reckoner

open Float.Model (Format UnpackedFloat)
open Float.Model.UnpackedFloat

-- Powers of natural numbers are the ones of the core library here, whatever else is imported.
attribute [local instance (high)] instPowNat

namespace Binary64

/-- A finite double that is within one unit of its last place of a real number. -/
structure WithinUlp (y : Float) (r : ℝ) : Prop where
  finite : y.isFinite = true
  error : |(value y : ℝ) - r| ≤ 2 ^ (magnitude y).exponent

/-- What stands for a real number among the doubles, also if it is too large for them. -/
def Approximates (y : Float) (r : ℝ) : Prop :=
  WithinUlp y r ∨ y.isInf = true ∧ 2 ^ (1023 : Int) ≤ |r|

section Bounds

variable {y : Float} {r : ℝ} {k : Int} {f : UnpackedFloat} {a : ℚ}

theorem HasValue.atLeast (h : HasValue f a) (lower : (2 : ℚ) ^ k ≤ |a|) : ∃ s, AtLeast s k f := by
  cases h with
  | zero =>
      rw [abs_zero] at lower
      exact absurd lower (two_zpow_pos k).not_ge
  | finite s hx =>
      rw [abs_signed, abs_of_pos hx.value_pos] at lower
      exact ⟨s, .finite hx lower⟩

/-- A unit of the last place is that of the subnormals or not more than the number itself. -/
theorem two_zpow_exponent_le (finite : y.isFinite = true) :
    (2 : ℚ) ^ (magnitude y).exponent ≤ max (2 ^ minExponent) |value y| := by
  have number : y.toModel.unpack.isFinite = true := finite
  rw [abs_value]
  rcases unpack_cases y with nan | ⟨s, _, infinite | ⟨_, digits⟩ | ⟨_, _, canonical⟩⟩
  · rw [nan] at number
    cases number
  · rw [infinite] at number
    cases number
  · rw [digits]
    exact le_max_left _ _
  · apply le_max_of_le_right
    exact le_mul_of_one_le_left (two_zpow_pos _).le (Nat.one_le_cast.mpr canonical.positive)

/-- An approximation has lost at most the leading digit of a number that is not tiny. -/
theorem Approximates.atLeast (h : Approximates y r) (least : minExponent < k)
    (lower : 2 ^ k ≤ |r|) : ∃ s, AtLeast s (k - 1) y.toModel.unpack := by
  obtain near | ⟨infinite, _⟩ := h
  · apply (hasValue near.finite).atLeast
    by_contra small
    rw [not_le] at small
    have double : (2 : ℚ) ^ k = 2 ^ (k - 1) + 2 ^ (k - 1) := by
      rw [← two_mul, ← zpow_one_add₀ two_ne_zero]
      congr 1
      omega
    have unit : (2 : ℚ) ^ (magnitude y).exponent ≤ 2 ^ (k - 1) :=
      (two_zpow_exponent_le near.finite).trans
        (max_le (zpow_le_zpow_right₀ one_le_two (by omega)) small.le)
    have bound : |value y| + 2 ^ (magnitude y).exponent < 2 ^ k := by linarith
    have real : |(value y : ℝ)| + 2 ^ (magnitude y).exponent < 2 ^ k := by
      have cast := Rat.cast_lt (K := ℝ).mpr bound
      push_cast at cast
      exact cast
    have triangle := abs_sub_abs_le_abs_sub r (value y)
    rw [abs_sub_comm] at triangle
    linarith [near.error]
  · obtain ⟨s, unpacked⟩ := unpack_of_isInf infinite
    exact ⟨s, unpacked ▸ .infinity⟩

end Bounds

end Binary64

namespace Numeric

open Binary64

/-- What is documented of the functions of a mathematical library. -/
structure Elementary.Accurate (lib : Elementary) : Prop where
  sine : ∀ x : Float, x.isFinite = true → WithinUlp (lib.sine x) (Real.sin (value x))
  sine_zero : ∀ x : Float, x.isFinite = true → value x = 0 → value (lib.sine x) = 0
  sine_ne_zero : ∀ x : Float, x.isFinite = true → value x ≠ 0 → value (lib.sine x) ≠ 0
  sine_infinite : ∀ x : Float, x.isFinite = false → (lib.sine x).isNaN = true
  power : ∀ x y : Float, x.isFinite = true → y.isFinite = true → 0 < value x →
    Approximates (lib.power x y) ((value x : ℝ) ^ (value y : ℝ))
  exponential : ∀ x : Float, x.isFinite = true →
    Approximates (lib.exponential x) (Real.exp (value x))

end Numeric

namespace Binary64

section Nearby

variable {r : ℝ}

/-- The sign of a real number other than zero. -/
noncomputable def signOf (r : ℝ) : Sign :=
  if r < 0 then .negative else .positive

/-- The digits of a real number other than zero that a double has room for, and one unit if there
are none. -/
noncomputable def cut (r : ℝ) : Magnitude :=
  let e := max (Int.log 2 |r| - 52) minExponent
  ⟨max 1 ⌊|r| / 2 ^ e⌋₊, e⟩

/-- A double close to a real number, and zero for zero only. -/
noncomputable def nearby (r : ℝ) : Float :=
  if r = 0 then 0
  else if 2 ^ (1023 : Int) ≤ |r| then .ofModel (.pack (.infinity (signOf r)))
  else .ofModel (.pack (.finite (signOf r) (cut r).significand (cut r).exponent
    (lt_max_of_lt_left Nat.one_pos)))

theorem two_zpow_real_pos (e : Int) : (0 : ℝ) < 2 ^ e := by positivity

/-- The leading digit of a real number is above the digits that a double has no room for. -/
theorem cut_bounds (nonzero : r ≠ 0) (small : |r| < 2 ^ (1023 : Int)) :
    (cut r).exponent ≤ 970 ∧ |r| / 2 ^ (cut r).exponent < (2 ^ 53 : Nat) ∧
      ((cut r).exponent = minExponent ∨ ((2 ^ 52 : Nat) : ℝ) ≤ |r| / 2 ^ (cut r).exponent) := by
  have lower : (2 : ℝ) ^ Int.log 2 |r| ≤ |r| :=
    Int.zpow_log_le_self (b := 2) one_lt_two (abs_pos.mpr nonzero)
  have upper : |r| < (2 : ℝ) ^ (Int.log 2 |r| + 1) :=
    Int.lt_zpow_succ_log_self (b := 2) one_lt_two |r|
  have range := (zpow_lt_zpow_iff_right₀ one_lt_two).mp (lower.trans_lt small)
  have exponent : (cut r).exponent = max (Int.log 2 |r| - 52) minExponent := rfl
  have digits (n : Nat) (e : Int) : ((2 ^ n : Nat) : ℝ) * 2 ^ e = 2 ^ (n + e) := by
    rw [zpow_add₀ two_ne_zero, zpow_natCast]
    push_cast
    rfl
  rw [div_lt_iff₀ (two_zpow_real_pos _), le_div_iff₀ (two_zpow_real_pos _), digits, digits,
    exponent]
  refine ⟨?_, upper.trans_le (zpow_le_zpow_right₀ one_le_two (by omega)), ?_⟩
  · simp only [minExponent]
    omega
  · obtain high | low := le_total minExponent (Int.log 2 |r| - 52)
    · rw [max_eq_left high]
      exact .inr ((zpow_le_zpow_right₀ one_le_two (by omega)).trans lower)
    · exact .inl (max_eq_right low)

theorem canonical_cut (nonzero : r ≠ 0) (small : |r| < 2 ^ (1023 : Int)) : Canonical (cut r) := by
  obtain ⟨range, upper, filled⟩ := cut_bounds nonzero small
  have nonneg : 0 ≤ |r| / 2 ^ (cut r).exponent := by positivity
  have significand : (cut r).significand = max 1 ⌊|r| / 2 ^ (cut r).exponent⌋₊ := rfl
  refine ⟨lt_max_of_lt_left Nat.one_pos, ?_, le_max_right _ _, by omega, ?_⟩
  · rw [significand]
    exact max_lt (by decide) ((Nat.floor_lt nonneg).mpr upper)
  · rw [significand]
    exact filled.imp_right fun full => le_max_of_le_right (Nat.le_floor full)

theorem cut_error (r : ℝ) : abs (((cut r).value : ℝ) - |r|) ≤ 2 ^ (cut r).exponent := by
  have unit := two_zpow_real_pos (cut r).exponent
  have nonneg : 0 ≤ |r| / 2 ^ (cut r).exponent := by positivity
  have floor := Nat.floor_le nonneg
  have next := Nat.lt_floor_add_one (|r| / 2 ^ (cut r).exponent)
  have units : |((cut r).significand : ℝ) - |r| / 2 ^ (cut r).exponent| ≤ 1 := by
    have significand : (cut r).significand = max 1 ⌊|r| / 2 ^ (cut r).exponent⌋₊ := rfl
    rw [significand, abs_le]
    generalize ⌊|r| / 2 ^ (cut r).exponent⌋₊ = n at floor next
    obtain rfl | pos := Nat.eq_zero_or_pos n
    · norm_num at next ⊢
      constructor <;> linarith
    · rw [max_eq_right pos]
      constructor <;> linarith
  have value : ((cut r).value : ℝ) - |r| =
      ((cut r).significand - |r| / 2 ^ (cut r).exponent) * 2 ^ (cut r).exponent := by
    rw [sub_mul, div_mul_cancel₀ _ unit.ne', Magnitude.value]
    push_cast
    rfl
  rw [value, abs_mul, abs_of_pos unit]
  exact mul_le_of_le_one_left unit.le units

theorem magnitude_of_unpack {y : Float} {s : Sign} {m : Nat} {e : Int} {pos : 0 < m}
    (unpacked : y.toModel.unpack = .finite s m e pos) : magnitude y = ⟨m, e⟩ := by
  rcases unpack_cases y with nan | ⟨_, _, infinite | ⟨zero, _⟩ | ⟨_, finite, _⟩⟩
  · exact nomatch unpacked.symm.trans nan
  · exact nomatch unpacked.symm.trans infinite
  · exact nomatch unpacked.symm.trans zero
  · obtain ⟨_, significand, exponent⟩ := UnpackedFloat.finite.inj (unpacked.symm.trans finite)
    rw [significand, exponent]

theorem unpack_nearby (nonzero : r ≠ 0) (small : |r| < 2 ^ (1023 : Int)) :
    (nearby r).toModel.unpack = .finite (signOf r) (cut r).significand (cut r).exponent
      (canonical_cut nonzero small).positive := by
  rw [nearby, if_neg nonzero, if_neg small.not_ge]
  exact unpack_pack (canonical_cut nonzero small)

theorem hasValue_nearby (nonzero : r ≠ 0) (small : |r| < 2 ^ (1023 : Int)) :
    HasValue (nearby r).toModel.unpack (signed (signOf r) (cut r).value) := by
  rw [unpack_nearby nonzero small]
  exact .finite (signOf r) (canonical_cut nonzero small)

theorem nearby_zero : nearby 0 = 0 := if_pos rfl

theorem value_nearby_ne_zero (nonzero : r ≠ 0) (small : |r| < 2 ^ (1023 : Int)) :
    value (nearby r) ≠ 0 := by
  have positive := (canonical_cut nonzero small).value_pos
  rw [value_eq (hasValue_nearby nonzero small), ← abs_pos, abs_signed, abs_of_pos positive]
  exact positive

theorem withinUlp_nearby (small : |r| < 2 ^ (1023 : Int)) : WithinUlp (nearby r) r := by
  obtain rfl | nonzero := eq_or_ne r 0
  · rw [nearby_zero]
    refine ⟨hasValue_zero.isFinite, ?_⟩
    rw [value_eq hasValue_zero, Rat.cast_zero, sub_zero, abs_zero]
    positivity
  · have number := hasValue_nearby nonzero small
    refine ⟨number.isFinite, ?_⟩
    rw [value_eq number, magnitude_of_unpack (unpack_nearby nonzero small)]
    have error := cut_error r
    by_cases negative : r < 0
    · rw [abs_of_neg negative, abs_le] at error
      rw [signOf, if_pos negative, signed, Rat.cast_neg, abs_le]
      constructor <;> linarith [error.1, error.2]
    · rw [abs_of_nonneg (not_lt.mp negative)] at error
      rw [signOf, if_neg negative]
      exact error

theorem approximates_nearby (r : ℝ) : Approximates (nearby r) r := by
  obtain small | large := lt_or_ge |r| (2 ^ (1023 : Int))
  · exact .inl (withinUlp_nearby small)
  · have nonzero : r ≠ 0 := abs_pos.mp ((two_zpow_real_pos 1023).trans_le large)
    rw [nearby, if_neg nonzero, if_pos large]
    refine .inr ⟨?_, large⟩
    show (unpack Format.binary64 (pack Format.binary64 (.infinity (signOf r)))).isInf = true
    rw [unpack_pack_infinity]
    rfl

end Nearby

end Binary64

namespace Numeric

open Binary64

/-- A library that gives doubles close to the true results. -/
noncomputable def Elementary.nearby : Elementary where
  sine x := if x.isFinite then Binary64.nearby (Real.sin (value x)) else 0 / 0
  power x y := Binary64.nearby ((value x : ℝ) ^ (value y : ℝ))
  exponential x := Binary64.nearby (Real.exp (value x))

theorem sin_ratCast_ne_zero {q : ℚ} (nonzero : q ≠ 0) : Real.sin q ≠ 0 := by
  intro zero
  obtain ⟨n, multiple⟩ := Real.sin_eq_zero_iff.mp zero
  have cast : (q : ℝ) ≠ 0 := Rat.cast_ne_zero.mpr nonzero
  have factor : (n : ℝ) ≠ 0 := by
    rintro none
    rw [none, zero_mul] at multiple
    exact cast multiple.symm
  refine irrational_pi.ne_rat (q / n) ?_
  push_cast
  rw [← multiple, mul_div_cancel_left₀ _ factor]

theorem abs_sin_lt (t : ℝ) : |Real.sin t| < 2 ^ (1023 : Int) :=
  (Real.abs_sin_le_one t).trans_lt (one_lt_zpow₀ one_lt_two (by decide))

theorem Elementary.sine_nearby {x : Float} (finite : x.isFinite = true) :
    Elementary.nearby.sine x = Binary64.nearby (Real.sin (value x)) :=
  if_pos finite

theorem Elementary.accurate_nearby : Elementary.nearby.Accurate where
  sine x finite := by
    rw [sine_nearby finite]
    exact withinUlp_nearby (abs_sin_lt _)
  sine_zero x finite zero := by
    rw [sine_nearby finite, zero, Rat.cast_zero, Real.sin_zero, nearby_zero]
    exact value_eq hasValue_zero
  sine_ne_zero x finite nonzero := by
    rw [sine_nearby finite]
    exact value_nearby_ne_zero (sin_ratCast_ne_zero nonzero) (abs_sin_lt _)
  sine_infinite x infinite := by
    have undefined : Elementary.nearby.sine x = 0 / 0 := by simp [Elementary.nearby, infinite]
    rw [undefined]
    decide +kernel
  power x y _ _ _ := approximates_nearby _
  exponential x _ := approximates_nearby _

end Numeric

end Reckoner
