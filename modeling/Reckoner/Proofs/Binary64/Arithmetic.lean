import Reckoner.Proofs.Binary64.Rounding

/-!
# Arithmetic on finite doubles

The results of the operations are the exact ones, rounded. Sums and differences are computed at the
smaller exponent, so a difference is zero only for equal numbers. A product of numbers that are not
tiny is not zero, and a quotient is cut off at an exponent where it is rounded correctly.
-/

namespace Reckoner.Binary64

open Float.Model (Format UnpackedFloat totalExponent)
open Float.Model.UnpackedFloat

-- Powers of natural numbers are the ones of the core library here, whatever else is imported.
attribute [local instance (high)] instPowNat

section Sums

variable {x y : Magnitude} {f g : UnpackedFloat} {a b : ℚ} {u v : Float}

theorem cast_apply (s : Sign) (m : Nat) (q : ℚ) :
    ((s.apply m : Int) : ℚ) * q = signed s (m * q) := by
  cases s with
  | positive => exact congrArg (· * q) (Int.cast_natCast m)
  | negative => rw [Sign.apply, signed, Int.cast_neg, Int.cast_natCast, neg_mul]

/-- Both numbers are written at the smaller exponent, where sums and differences are exact. -/
theorem exists_common (hx : Canonical x) (hy : Canonical y) (s s' : Sign) :
    ∃ m n e : Int, (m : ℚ) * 2 ^ e = signed s x.value ∧ (n : ℚ) * 2 ^ e = signed s' y.value ∧
      UnpackedFloat.sub Format.binary64
        (.finite s x.significand x.exponent hx.positive)
        (.finite s' y.significand y.exponent hy.positive) =
          UnpackedFloat.normalize Format.binary64 (m - n) e .positive ∧
      UnpackedFloat.add Format.binary64
        (.finite s x.significand x.exponent hx.positive)
        (.finite s' y.significand y.exponent hy.positive) =
          UnpackedFloat.normalize Format.binary64 (m + n) e .positive := by
  let t := min x.exponent y.exponent
  refine ⟨s.apply (decreaseExponent x.significand x.exponent t).1,
    s'.apply (decreaseExponent y.significand y.exponent t).1, t, ?_, ?_, rfl, rfl⟩
  · rw [cast_apply, value_decreaseExponent_of_le x.significand (min_le_left ..), Magnitude.value]
  · rw [cast_apply, value_decreaseExponent_of_le y.significand (min_le_right ..), Magnitude.value]

theorem HasValue.sub (hf : HasValue f a) (hg : HasValue g b) :
    RoundsTo (a - b) (unpack Format.binary64 (pack Format.binary64
      (UnpackedFloat.sub Format.binary64 f g))) := by
  cases hf with
  | zero s =>
      cases hg with
      | zero s' =>
          rw [sub_zero, UnpackedFloat.sub]
          split <;> rw [unpack_pack_zero] <;> exact roundsTo_zero _
      | finite s' hy =>
          have opposite := (HasValue.finite s' hy).neg
          rw [zero_sub]
          exact opposite.unpack_pack.symm ▸ opposite.roundsTo
  | @finite s x hx =>
      cases hg with
      | zero s' =>
          rw [sub_zero]
          exact (HasValue.finite s hx).unpack_pack.symm ▸ (HasValue.finite s hx).roundsTo
      | @finite s' y hy =>
          obtain ⟨m, n, e, left, right, difference, _⟩ := exists_common hx hy s s'
          rw [difference, ← left, ← right, ← sub_mul, ← Int.cast_sub]
          exact roundsTo_normalize (m - n) e .positive

theorem HasValue.add (hf : HasValue f a) (hg : HasValue g b) :
    RoundsTo (a + b) (unpack Format.binary64 (pack Format.binary64
      (UnpackedFloat.add Format.binary64 f g))) := by
  cases hf with
  | zero s =>
      cases hg with
      | zero s' =>
          rw [add_zero, UnpackedFloat.add]
          split <;> rw [unpack_pack_zero] <;> exact roundsTo_zero _
      | finite s' hy =>
          rw [zero_add]
          exact (HasValue.finite s' hy).unpack_pack.symm ▸ (HasValue.finite s' hy).roundsTo
  | @finite s x hx =>
      cases hg with
      | zero s' =>
          rw [add_zero]
          exact (HasValue.finite s hx).unpack_pack.symm ▸ (HasValue.finite s hx).roundsTo
      | @finite s' y hy =>
          obtain ⟨m, n, e, left, right, _, sum⟩ := exists_common hx hy s s'
          rw [sum, ← left, ← right, ← add_mul, ← Int.cast_add]
          exact roundsTo_normalize (m + n) e .positive

theorem sub_eq_pack (u v : Float) : u - v =
    .ofModel (.pack (UnpackedFloat.sub Format.binary64 u.toModel.unpack v.toModel.unpack)) := rfl

theorem add_eq_pack (u v : Float) : u + v =
    .ofModel (.pack (UnpackedFloat.add Format.binary64 u.toModel.unpack v.toModel.unpack)) := rfl

theorem sub_negative_infinity (hf : HasValue f a) :
    UnpackedFloat.sub Format.binary64 f (.infinity .negative) = .infinity .positive := by
  cases hf <;> rfl

theorem roundsTo_sub (hu : HasValue u.toModel.unpack a) (hv : HasValue v.toModel.unpack b) :
    RoundsTo (a - b) (u - v).toModel.unpack :=
  hu.sub hv

theorem roundsTo_add (hu : HasValue u.toModel.unpack a) (hv : HasValue v.toModel.unpack b) :
    RoundsTo (a + b) (u + v).toModel.unpack :=
  hu.add hv

/-- Every value is a whole number of the least subnormal. -/
theorem HasValue.exists_units (h : HasValue f a) : ∃ n : Int, a = n * 2 ^ minExponent := by
  cases h with
  | zero => exact ⟨0, by rw [Int.cast_zero, zero_mul]⟩
  | @finite s x hx =>
      have reached := value_decreaseExponent_of_le x.significand hx.least
      exact ⟨_, (congrArg (signed s) reached).symm.trans (cast_apply s _ _).symm⟩

theorem HasValue.le_abs_sub (hf : HasValue f a) (hg : HasValue g b) (different : a ≠ b) :
    ∃ s, (2 : ℚ) ^ minExponent ≤ signed s (a - b) := by
  obtain ⟨m, rfl⟩ := hf.exists_units
  obtain ⟨n, rfl⟩ := hg.exists_units
  have unit : (0 : ℚ) ≤ 2 ^ minExponent := (two_zpow_pos _).le
  obtain less | rfl | greater := lt_trichotomy m n
  · refine ⟨.negative, ?_⟩
    have one : (1 : ℚ) ≤ (n - m : Int) := by exact_mod_cast (by omega : 1 ≤ n - m)
    calc (2 : ℚ) ^ minExponent ≤ (n - m : Int) * 2 ^ minExponent := le_mul_of_one_le_left unit one
      _ = -(m * 2 ^ minExponent - n * 2 ^ minExponent) := by push_cast; ring
  · exact absurd rfl different
  · refine ⟨.positive, ?_⟩
    have one : (1 : ℚ) ≤ (m - n : Int) := by exact_mod_cast (by omega : 1 ≤ m - n)
    calc (2 : ℚ) ^ minExponent ≤ (m - n : Int) * 2 ^ minExponent := le_mul_of_one_le_left unit one
      _ = m * 2 ^ minExponent - n * 2 ^ minExponent := by push_cast; ring

theorem compare_zero_of_atLeast {s : Sign} {k : Int} (h : AtLeast s k f) :
    f.compare (.zero .positive) ≠ some .eq := by
  cases h <;> cases s <;> exact nofun

/-- A difference is zero for equal numbers only. -/
theorem sub_beq_zero_iff (hu : u.isFinite = true) (hv : v.isFinite = true) :
    (u - v == 0) = true ↔ value u = value v := by
  have rounded := roundsTo_sub (hasValue hu) (hasValue hv)
  rw [beq_iff_compare, unpack_zero]
  by_cases same : value u = value v
  · obtain ⟨s, nothing⟩ := rounded.zero (sub_eq_zero.mpr same)
    rw [nothing]
    exact iff_of_true rfl same
  · obtain ⟨s, lower⟩ := (hasValue hu).le_abs_sub (hasValue hv) same
    exact iff_of_false
      (compare_zero_of_atLeast (rounded.atLeast s minExponent (Int.le_refl _) lower)) same

end Sums

section Products

variable {x y : Magnitude} {f g : UnpackedFloat} {a b : ℚ} {s s' : Sign} {i j : Int} {u v : Float}

theorem le_target_of_least {m : Nat} {e : Int} (least : e ≤ minExponent) : e ≤ target m e := by
  rw [target_eq]
  exact least.trans (le_max_right _ _)

theorem Canonical.le_target_mul (hx : Canonical x) (hy : Canonical y) :
    x.exponent + y.exponent ≤ target (x.significand * y.significand) (x.exponent + y.exponent) := by
  obtain first | filled := hx.filled
  · obtain second | filled := hy.filled
    · apply le_target_of_least
      rw [first, second]
      decide
    · exact le_target_of_filled (filled.trans (Nat.le_mul_of_pos_left _ hx.positive))
  · exact le_target_of_filled (filled.trans (Nat.le_mul_of_pos_right _ hy.positive))

theorem Canonical.mul (hx : Canonical x) (hy : Canonical y) (s s' : Sign) :
    RoundsTo (signed (s * s') (x.value * y.value)) (unpack Format.binary64 (pack Format.binary64
      (UnpackedFloat.mul Format.binary64 (.finite s x.significand x.exponent hx.positive)
        (.finite s' y.significand y.exponent hy.positive)))) := by
  have product : ((x.significand * y.significand : Nat) : ℚ) * 2 ^ (x.exponent + y.exponent) =
      x.value * y.value := by
    rw [Magnitude.value, Magnitude.value, two_zpow_add]
    push_cast
    ring
  apply roundsTo_roundWithAccuracy (s * s') .exact (hx.le_target_mul hy)
    (mul_pos hx.value_pos hy.value_pos) product.le
  rw [← product]
  exact mul_lt_mul_of_pos_right (Nat.cast_lt.mpr (Nat.lt_succ_self _)) (two_zpow_pos _)

/-- Lower bounds on the factors are one on the product. -/
theorem AtLeast.mul (hf : AtLeast s i f) (hg : AtLeast s' j g) (least : minExponent ≤ i + j) :
    AtLeast (s * s') (i + j)
      (unpack Format.binary64 (pack Format.binary64 (UnpackedFloat.mul Format.binary64 f g))) := by
  cases hf with
  | infinity => cases hg <;> exact (unpack_pack_infinity (s * s')).symm ▸ .infinity
  | finite hx lower =>
      cases hg with
      | infinity => exact (unpack_pack_infinity (s * s')).symm ▸ .infinity
      | finite hy lower' =>
          apply (hx.mul hy s s').atLeast (s * s') (i + j) least
          rw [signed_signed_self, two_zpow_add]
          exact mul_le_mul lower lower' (two_zpow_pos j).le hx.value_pos.le

theorem atLeast_mul (hu : AtLeast s i u.toModel.unpack) (hv : AtLeast s' j v.toModel.unpack)
    (least : minExponent ≤ i + j) : AtLeast (s * s') (i + j) (u * v).toModel.unpack :=
  hu.mul hv least

theorem mul_eq_pack (u v : Float) : u * v =
    .ofModel (.pack (UnpackedFloat.mul Format.binary64 u.toModel.unpack v.toModel.unpack)) := rfl

theorem isNaN_mul (h : u.isNaN = true) (v : Float) : (u * v).isNaN = true := by
  have product : UnpackedFloat.mul Format.binary64 .notANumber v.toModel.unpack = .notANumber := by
    cases v.toModel.unpack <;> rfl
  rw [mul_eq_pack, unpack_of_isNaN h, product]
  rfl

/-- A product with zero is zero, or NaN if the other factor is not finite. -/
theorem zero_mul_cases (h : u.toModel.unpack = .zero s) (v : Float) :
    (∃ s, (u * v).toModel.unpack = .zero s) ∨ (u * v).isNaN = true := by
  have product : (∃ s', UnpackedFloat.mul Format.binary64 (.zero s) v.toModel.unpack = .zero s') ∨
      UnpackedFloat.mul Format.binary64 (.zero s) v.toModel.unpack = .notANumber := by
    cases v.toModel.unpack with
    | notANumber | infinity => exact .inr rfl
    | zero s' | finite s' => exact .inl ⟨s * s', rfl⟩
  rw [mul_eq_pack, h]
  obtain ⟨s', zero⟩ | nan := product
  · rw [zero]
    exact .inl ⟨s', unpack_pack_zero s'⟩
  · rw [nan]
    exact .inr rfl

theorem hasValue_mul_zero (h : HasValue f a) (s : Sign) :
    HasValue (unpack Format.binary64 (pack Format.binary64
      (UnpackedFloat.mul Format.binary64 f (.zero s)))) 0 := by
  have product : ∃ s', UnpackedFloat.mul Format.binary64 f (.zero s) = .zero s' := by
    cases h with
    | zero s' | finite s' => exact ⟨s' * s, rfl⟩
  obtain ⟨s', zero⟩ := product
  rw [zero, unpack_pack_zero]
  exact .zero s'

theorem div_eq_pack (u v : Float) : u / v =
    .ofModel (.pack (UnpackedFloat.div Format.binary64 u.toModel.unpack v.toModel.unpack)) := rfl

theorem one_div_zero : (1 / 0 : Float) = .ofModel (.pack (.infinity .positive)) := by
  decide +kernel

theorem unpack_one_div_zero : (1 / 0 : Float).toModel.unpack = .infinity .positive := by
  rw [one_div_zero]
  rfl

/-- A quotient is cut off at an exponent where it is not rounded yet. -/
theorem divCore_eq {m₁ m₂ : Nat} (e₁ e₂ : Int) (pos₁ : 0 < m₁) (pos₂ : 0 < m₂) :
    ∃ (n : Nat) (t : Int), e₁ = n + (t + e₂) ∧ t ≤ target (m₁ * 2 ^ n / m₂) t ∧
      divCore Format.binary64 m₁ e₁ m₂ e₂ =
        (m₁ * 2 ^ n / m₂, t, accuracyOfFraction (m₁ * 2 ^ n % m₂) m₂) := by
  let t := min (e₁ - e₂)
    (Format.binary64.targetExponent (totalExponent m₁ e₁ - totalExponent m₂ e₂))
  obtain ⟨n, shift⟩ : ∃ n : Nat, e₁ - e₂ - t = n := Int.eq_ofNat_of_zero_le (by omega)
  have amount : (e₁ - e₂ - t).toNat = n := by omega
  refine ⟨n, t, by omega, ?_, ?_⟩
  · by_cases least : t ≤ minExponent
    · exact le_target_of_least least
    · apply le_target_of_filled
      have low : t ≤ totalExponent m₁ e₁ - totalExponent m₂ e₂ - 53 := by
        have := targetExponent_eq (totalExponent m₁ e₁ - totalExponent m₂ e₂)
        omega
      rw [totalExponent, totalExponent] at low
      rw [Nat.le_div_iff_mul_le pos₂]
      calc 2 ^ 52 * m₂ ≤ 2 ^ 52 * 2 ^ (m₂.log2 + 1) :=
            Nat.mul_le_mul_left _ Nat.lt_log2_self.le
        _ = 2 ^ (52 + (m₂.log2 + 1)) := (Nat.pow_add ..).symm
        _ ≤ 2 ^ (m₁.log2 + n) := Nat.pow_le_pow_right two_pos (by omega)
        _ = 2 ^ m₁.log2 * 2 ^ n := Nat.pow_add ..
        _ ≤ m₁ * 2 ^ n := Nat.mul_le_mul_right _ (Nat.log2_self_le (Nat.ne_of_gt pos₁))
  · show (m₁ <<< (e₁ - e₂ - t).toNat / m₂, t,
      accuracyOfFraction (m₁ <<< (e₁ - e₂ - t).toNat % m₂) m₂) = _
    rw [amount, Nat.shiftLeft_eq]

theorem divCore_spec {m₁ m₂ : Nat} (e₁ e₂ : Int) (pos₁ : 0 < m₁) (pos₂ : 0 < m₂) :
    ∃ m e accuracy, divCore Format.binary64 m₁ e₁ m₂ e₂ = (m, e, accuracy) ∧ e ≤ target m e ∧
      (m : ℚ) * 2 ^ e * (m₂ * 2 ^ e₂) ≤ m₁ * 2 ^ e₁ ∧
      (m₁ : ℚ) * 2 ^ e₁ < (m + 1 : Nat) * 2 ^ e * (m₂ * 2 ^ e₂) := by
  obtain ⟨n, t, exponent, le, quotient⟩ := divCore_eq e₁ e₂ pos₁ pos₂
  have scale (k : Nat) : (k : ℚ) * 2 ^ t * (m₂ * 2 ^ e₂) = (k * m₂ : Nat) * 2 ^ (t + e₂) := by
    rw [two_zpow_add]
    push_cast
    ring
  have dividend : (m₁ : ℚ) * 2 ^ e₁ = (m₁ * 2 ^ n : Nat) * 2 ^ (t + e₂) := by
    rw [exponent, two_zpow_add, Nat.cast_mul, natCast_two_pow]
    ring
  refine ⟨_, t, _, quotient, le, ?_, ?_⟩
  · rw [scale, dividend]
    exact mul_le_mul_of_nonneg_right (Nat.cast_le.mpr (Nat.div_mul_le_self _ _))
      (two_zpow_pos _).le
  · have next : m₁ * 2 ^ n < (m₁ * 2 ^ n / m₂ + 1) * m₂ := by
      rw [Nat.mul_comm (_ + 1)]
      exact Nat.lt_mul_div_succ _ pos₂
    rw [scale, dividend]
    exact mul_lt_mul_of_pos_right (Nat.cast_lt.mpr next) (two_zpow_pos _)

theorem Canonical.div (hx : Canonical x) (hy : Canonical y) (s s' : Sign) :
    RoundsTo (signed (s / s') (x.value / y.value)) (unpack Format.binary64 (pack Format.binary64
      (UnpackedFloat.div Format.binary64 (.finite s x.significand x.exponent hx.positive)
        (.finite s' y.significand y.exponent hy.positive)))) := by
  obtain ⟨m, e, accuracy, quotient, le, floor, below⟩ :=
    divCore_spec x.exponent y.exponent hx.positive hy.positive
  simp only [UnpackedFloat.div, quotient]
  apply roundsTo_roundWithAccuracy (s / s') accuracy le (div_pos hx.value_pos hy.value_pos)
  · rwa [le_div_iff₀ hy.value_pos]
  · rwa [div_lt_iff₀ hy.value_pos]

theorem signed_div (s s' : Sign) (a b : ℚ) :
    signed s a / signed s' b = signed (s / s') (a / b) := by
  cases s <;> cases s'
  · exact neg_div_neg_eq a b
  · exact neg_div b a
  · exact div_neg a
  · rfl

theorem HasValue.div (hf : HasValue f a) (hg : HasValue g b) (nonzero : b ≠ 0) :
    RoundsTo (a / b) (unpack Format.binary64 (pack Format.binary64
      (UnpackedFloat.div Format.binary64 f g))) := by
  cases hg with
  | zero => exact absurd rfl nonzero
  | finite s' hy =>
      cases hf with
      | zero s =>
          rw [zero_div]
          exact (unpack_pack_zero (s / s')).symm ▸ roundsTo_zero (s / s')
      | finite s hx =>
          rw [signed_div]
          exact hx.div hy s s'

theorem roundsTo_div (hu : HasValue u.toModel.unpack a) (hv : HasValue v.toModel.unpack b)
    (nonzero : b ≠ 0) : RoundsTo (a / b) (u / v).toModel.unpack :=
  hu.div hv nonzero

/-- The quotient by a number that is not tiny is finite. -/
theorem isFinite_div (hu : HasValue u.toModel.unpack a) (upper : |a| < 2 ^ i)
    (hv : AtLeast s j v.toModel.unpack) (least : minExponent + 53 ≤ i - j) (range : i - j ≤ 1023) :
    (u / v).isFinite = true := by
  show (unpack Format.binary64 (pack Format.binary64 (UnpackedFloat.div Format.binary64
    u.toModel.unpack v.toModel.unpack))).isFinite = true
  generalize u.toModel.unpack = f at hu
  generalize v.toModel.unpack = g at hv
  cases hv with
  | infinity =>
      cases hu with
      | zero s' => exact (congrArg isFinite (unpack_pack_zero (s' / s))).trans rfl
      | finite s' => exact (congrArg isFinite (unpack_pack_zero (s' / s))).trans rfl
  | @finite y hy lower =>
      have divisor : |signed s y.value| = y.value := by
        rw [abs_signed, abs_of_pos hy.value_pos]
      have nonzero : signed s y.value ≠ 0 := by
        rw [← abs_pos, divisor]
        exact hy.value_pos
      have small : |a / signed s y.value| < 2 ^ (i - j) := by
        rw [abs_div, divisor, div_lt_iff₀ hy.value_pos]
        calc |a| < 2 ^ i := upper
          _ = 2 ^ (i - j) * 2 ^ j := by rw [← two_zpow_add, sub_add_cancel]
          _ ≤ 2 ^ (i - j) * y.value := mul_le_mul_of_nonneg_left lower (two_zpow_pos _).le
      obtain ⟨b, value, _⟩ := (hu.div (.finite s hy) nonzero).near (i - j) least range small
      exact value.isFinite

/-- A quotient by zero or by NaN is not finite. -/
theorem not_isFinite_div (hu : HasValue u.toModel.unpack a)
    (hv : (∃ s, v.toModel.unpack = .zero s) ∨ v.isNaN = true) : (u / v).isFinite = false := by
  show (unpack Format.binary64 (pack Format.binary64 (UnpackedFloat.div Format.binary64
    u.toModel.unpack v.toModel.unpack))).isFinite = false
  generalize u.toModel.unpack = f at hu
  obtain ⟨s, zero⟩ | nan := hv
  · rw [zero]
    cases hu with
    | zero => exact congrArg isFinite unpack_pack_notANumber
    | finite s' => exact congrArg isFinite (unpack_pack_infinity (s' / s))
  · rw [unpack_of_isNaN nan]
    cases hu <;> exact congrArg isFinite unpack_pack_notANumber

end Products

end Reckoner.Binary64
