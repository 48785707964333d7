import Reckoner.Proofs.Binary64.Packing

/-!
# Numbers that doubles stand for are not rounded

Arithmetic on doubles computes a significand and an exponent that may have too many digits, and
rounds. If the exact result is the magnitude of a double, nothing is lost: the position of the
leading digit depends on the number alone and not on how it is written, so rounding shifts to the
exponent of that double and drops only zeros. The values are compared as rational numbers.
-/

namespace Reckoner.Binary64

open Float.Model (Format UnpackedFloat totalExponent)
open Float.Model.UnpackedFloat

-- Powers of natural numbers are the ones of the core library here, whatever else is imported.
attribute [local instance (high)] instPowNat

/-- The number that a magnitude stands for. -/
def Magnitude.value (m : Magnitude) : ℚ :=
  m.significand * 2 ^ m.exponent

theorem Magnitude.value_nonneg (m : Magnitude) : 0 ≤ m.value := by
  unfold value
  positivity

section TotalExponent

variable {m : Nat} {e t : Int}

theorem two_zpow_pos (e : Int) : (0 : ℚ) < 2 ^ e := by positivity

theorem two_zpow_add (a b : Int) : (2 : ℚ) ^ (a + b) = 2 ^ a * 2 ^ b :=
  zpow_add₀ two_ne_zero a b

theorem natCast_two_pow (n : Nat) : ((2 ^ n : Nat) : ℚ) = 2 ^ (n : Int) := by
  rw [zpow_natCast]
  norm_cast

theorem two_zpow_le_value (pos : 0 < m) : (2 : ℚ) ^ (totalExponent m e - 1) ≤ m * 2 ^ e := by
  have log : ((2 ^ m.log2 : Nat) : ℚ) ≤ m := Nat.cast_le.mpr (Nat.log2_self_le (Nat.ne_of_gt pos))
  have exponent : totalExponent m e - 1 = m.log2 + e := by
    simp only [totalExponent]
    omega
  rw [natCast_two_pow] at log
  rw [exponent, two_zpow_add]
  exact mul_le_mul_of_nonneg_right log (two_zpow_pos e).le

theorem value_lt_two_zpow (m : Nat) (e : Int) : (m : ℚ) * 2 ^ e < 2 ^ totalExponent m e := by
  have log : (m : ℚ) < ((2 ^ (m.log2 + 1) : Nat) : ℚ) := Nat.cast_lt.mpr Nat.lt_log2_self
  rw [natCast_two_pow] at log
  rw [totalExponent, two_zpow_add]
  exact mul_lt_mul_of_pos_right log (two_zpow_pos e)

theorem totalExponent_le (pos : 0 < m) (h : (m : ℚ) * 2 ^ e < 2 ^ t) : totalExponent m e ≤ t := by
  have below := (two_zpow_le_value pos).trans_lt h
  have := (zpow_lt_zpow_iff_right₀ one_lt_two).mp below
  omega

/-- The position of the leading digit depends on the number alone. -/
theorem totalExponent_congr {m' : Nat} {e' : Int} (pos : 0 < m) (pos' : 0 < m')
    (value : (m : ℚ) * 2 ^ e = m' * 2 ^ e') : totalExponent m e = totalExponent m' e' :=
  Int.le_antisymm (totalExponent_le pos (value ▸ value_lt_two_zpow m' e'))
    (totalExponent_le pos' (value ▸ value_lt_two_zpow m e))

theorem value_decreaseExponent (m : Nat) (e t : Int) :
    ((decreaseExponent m e t).1 : ℚ) * 2 ^ (decreaseExponent m e t).2 = m * 2 ^ e := by
  simp only [decreaseExponent, Nat.shiftLeft_eq, Nat.cast_mul, natCast_two_pow]
  rw [mul_assoc, ← two_zpow_add, add_sub_cancel]

theorem decreaseExponent_le (m : Nat) (e t : Int) : (decreaseExponent m e t).2 ≤ t := by
  simp only [decreaseExponent]
  omega

theorem value_decreaseExponent_of_le (m : Nat) {e t : Int} (le : t ≤ e) :
    ((decreaseExponent m e t).1 : ℚ) * 2 ^ t = m * 2 ^ e := by
  have reached : (decreaseExponent m e t).2 = t := by
    simp only [decreaseExponent]
    omega
  rw [← value_decreaseExponent m e t, reached]

end TotalExponent

theorem Magnitude.value_mul_denominator (m : Magnitude) : m.value * m.ratio.2 = m.ratio.1 := by
  have exponent : m.exponent + ((-m.exponent).toNat : Int) = m.exponent.toNat := by omega
  rw [Magnitude.value, Magnitude.ratio, Nat.cast_mul, natCast_two_pow, natCast_two_pow, mul_assoc,
    ← two_zpow_add, exponent]

section Round

theorem targetExponent_eq (t : Int) :
    Format.binary64.targetExponent t = max (t - 53) minExponent := rfl

/-- The exponent that `m * 2 ^ e` is rounded at. -/
def target (m : Nat) (e : Int) : Int :=
  Format.binary64.targetExponent (totalExponent m e)

theorem target_eq (m : Nat) (e : Int) : target m e = max (m.log2 + e - 52) minExponent := by
  rw [target, targetExponent_eq, totalExponent]
  congr 1
  omega

variable {x : Magnitude} {m m₁ m₂ : Nat} {e e₁ e₂ : Int}

theorem target_of_filled (bounded : m < 2 ^ 53) (least : minExponent ≤ e)
    (filled : e = minExponent ∨ 2 ^ 52 ≤ m) : target m e = e := by
  have short : m.log2 ≤ 52 := by
    obtain rfl | pos := Nat.eq_zero_or_pos m
    · exact Nat.zero_le 52
    · have := (Nat.log2_lt (Nat.ne_of_gt pos)).mpr bounded
      omega
  rw [target_eq]
  obtain first | normal := filled
  · omega
  · have := (Nat.le_log2 (by omega)).mpr normal
    omega

theorem Canonical.target_eq (h : Canonical x) : target x.significand x.exponent = x.exponent :=
  target_of_filled h.bounded h.least h.filled

/-- Numbers are rounded at the same exponent however they are written. -/
theorem target_congr (pos₁ : 0 < m₁) (pos₂ : 0 < m₂)
    (value : (m₁ : ℚ) * 2 ^ e₁ = m₂ * 2 ^ e₂) : target m₁ e₁ = target m₂ e₂ :=
  congrArg Format.binary64.targetExponent (totalExponent_congr pos₁ pos₂ value)

theorem le_target_of_filled (filled : 2 ^ 52 ≤ m) : e ≤ target m e := by
  have digits := (Nat.le_log2 (by omega)).mpr filled
  rw [target_eq]
  omega

theorem shiftRight_exact (m k : Nat) :
    (ExtendedMantissa.mk (m * 2 ^ k) false false) >>> k = ⟨m, false, false⟩ := by
  induction k generalizing m with
  | zero => simp [HShiftRight.hShiftRight, Nat.repeat]
  | succ k ih =>
      have shifted : m * 2 ^ (k + 1) = m * 2 * 2 ^ k := by
        rw [Nat.pow_succ, Nat.mul_assoc, Nat.mul_comm 2]
      show ExtendedMantissa.shiftRightOne
        (ExtendedMantissa.mk (m * 2 ^ (k + 1)) false false >>> k) = _
      rw [shifted, ih]
      simp [ExtendedMantissa.shiftRightOne]

theorem shiftToTargetExponent_exact (h : Canonical x) (k : Nat) :
    shiftToTargetExponent Format.binary64 (x.significand * 2 ^ k) (x.exponent - k) .exact =
      (⟨x.significand, false, false⟩, x.exponent) := by
  have pos : 0 < x.significand * 2 ^ k := Nat.mul_pos h.positive (Nat.two_pow_pos k)
  have value : ((x.significand * 2 ^ k : Nat) : ℚ) * 2 ^ (x.exponent - k) =
      x.significand * 2 ^ x.exponent := by
    rw [Nat.cast_mul, natCast_two_pow, mul_assoc, ← two_zpow_add]
    congr 2
    omega
  have reached : Format.binary64.targetExponent
      (totalExponent (x.significand * 2 ^ k) (x.exponent - k)) = x.exponent :=
    (target_congr pos h.positive value).trans h.target_eq
  have shift : (x.exponent - (x.exponent - k)).toNat = k := by omega
  have exponent : x.exponent - k + k = x.exponent := by omega
  simp only [shiftToTargetExponent, reached, shiftToExponent, shift, exponent]
  rw [ExtendedMantissa.ofMantissaAndAccuracy, shiftRight_exact]

/-- A number that some double stands for is not changed by rounding. -/
theorem roundWithAccuracy_exact (h : Canonical x) (s : Sign) (k : Nat) :
    roundWithAccuracy Format.binary64 s (x.significand * 2 ^ k) (x.exponent - k) .exact =
      .finite s x.significand x.exponent h.positive := by
  have again := shiftToTargetExponent_exact h 0
  rw [Nat.pow_zero, Nat.mul_one, Int.natCast_zero, Int.sub_zero] at again
  simp only [roundWithAccuracy, shiftToTargetExponent_exact h, ExtendedMantissa.roundedMantissa,
    ExtendedMantissa.accuracy, Accuracy.roundToNearestEven, again]
  exact dif_neg (Nat.ne_of_gt h.positive)

theorem exists_shift (value : (m : ℚ) * 2 ^ e = x.value) (le : e ≤ x.exponent) :
    ∃ k : Nat, m = x.significand * 2 ^ k ∧ e = x.exponent - k := by
  refine ⟨(x.exponent - e).toNat, ?_, by omega⟩
  have shift : x.exponent = ((x.exponent - e).toNat : Int) + e := by omega
  generalize (x.exponent - e).toNat = k at shift ⊢
  rw [Magnitude.value, shift, two_zpow_add, ← mul_assoc, ← natCast_two_pow] at value
  exact_mod_cast mul_right_cancel₀ (two_zpow_pos e).ne' value

theorem Canonical.value_pos (h : Canonical x) : 0 < x.value :=
  mul_pos (Nat.cast_pos.mpr h.positive) (two_zpow_pos x.exponent)

theorem round_exact (h : Canonical x) (s : Sign) (value : (m : ℚ) * 2 ^ e = x.value) :
    UnpackedFloat.round Format.binary64 s m e =
      .finite s x.significand x.exponent h.positive := by
  have pos : 0 < m := by
    obtain rfl | pos := Nat.eq_zero_or_pos m
    · rw [Nat.cast_zero, zero_mul] at value
      exact absurd value h.value_pos.ne
    · exact pos
  have reached : Format.binary64.targetExponent (totalExponent m e) = x.exponent :=
    (target_congr pos h.positive value).trans h.target_eq
  have shifted := (value_decreaseExponent m e x.exponent).trans value
  obtain ⟨k, significand, exponent⟩ := exists_shift shifted (decreaseExponent_le m e x.exponent)
  have rounded := roundWithAccuracy_exact h s k
  rw [← significand, ← exponent] at rounded
  rw [UnpackedFloat.round, reached]
  exact rounded

theorem normalize_exact (h : Canonical x) {m : Int} (zero : Sign)
    (value : (m : ℚ) * 2 ^ e = x.value) :
    UnpackedFloat.normalize Format.binary64 m e zero =
      .finite .positive x.significand x.exponent h.positive := by
  have pos : 0 < m := by
    have positive : (0 : ℚ) < m * 2 ^ e := value ▸ h.value_pos
    exact Int.cast_pos.mp (pos_of_mul_pos_left positive (two_zpow_pos e).le)
  obtain ⟨n, rfl⟩ := Int.eq_ofNat_of_zero_le pos.le
  rw [UnpackedFloat.normalize, Int.compare_eq_gt.mpr pos]
  exact round_exact h .positive (by exact_mod_cast value)

theorem mul_exact (h : Canonical x) {pos₁ : 0 < m₁} {pos₂ : 0 < m₂} (filled : 2 ^ 52 ≤ m₁)
    (value : ((m₁ : ℚ) * 2 ^ e₁) * (m₂ * 2 ^ e₂) = x.value) :
    mul Format.binary64 (.finite .positive m₁ e₁ pos₁) (.finite .positive m₂ e₂ pos₂) =
      .finite .positive x.significand x.exponent h.positive := by
  have product : ((m₁ * m₂ : Nat) : ℚ) * 2 ^ (e₁ + e₂) = x.value := by
    rw [← value, two_zpow_add]
    push_cast
    ring
  have le : e₁ + e₂ ≤ x.exponent := by
    have large : 2 ^ 52 ≤ m₁ * m₂ := filled.trans (Nat.le_mul_of_pos_right m₁ pos₂)
    rw [← h.target_eq, ← target_congr (Nat.mul_pos pos₁ pos₂) h.positive product]
    exact le_target_of_filled large
  obtain ⟨k, significand, exponent⟩ := exists_shift product le
  show roundWithAccuracy Format.binary64 .positive (m₁ * m₂) (e₁ + e₂) .exact = _
  rw [significand, exponent, roundWithAccuracy_exact h]

theorem div_exact (h : Canonical x) {pos₁ : 0 < m₁} {pos₂ : 0 < m₂}
    (value : (m₁ : ℚ) * 2 ^ e₁ = x.value * (m₂ * 2 ^ e₂)) :
    div Format.binary64 (.finite .positive m₁ e₁ pos₁) (.finite .positive m₂ e₂ pos₂) =
      .finite .positive x.significand x.exponent h.positive := by
  -- The quotient is computed at an exponent that is not above that of the result.
  have total : totalExponent m₁ e₁ - totalExponent m₂ e₂ ≤
      totalExponent x.significand x.exponent := by
    have below : (m₁ : ℚ) * 2 ^ e₁ <
        2 ^ (totalExponent x.significand x.exponent + totalExponent m₂ e₂) := by
      rw [value, two_zpow_add]
      exact mul_lt_mul'' (value_lt_two_zpow _ _) (value_lt_two_zpow _ _) x.value_nonneg
        (by positivity)
    have := totalExponent_le pos₁ below
    omega
  let t := min (e₁ - e₂) (Format.binary64.targetExponent
    (totalExponent m₁ e₁ - totalExponent m₂ e₂))
  have le : t ≤ x.exponent := by
    have reached := h.target_eq
    simp only [target, targetExponent_eq, t] at reached ⊢
    omega
  obtain ⟨j, shift⟩ : ∃ j : Nat, e₁ - e₂ - t = j := Int.eq_ofNat_of_zero_le (by omega)
  obtain ⟨k, exponent⟩ : ∃ k : Nat, x.exponent - t = k := Int.eq_ofNat_of_zero_le (by omega)
  have quotient : m₁ <<< (e₁ - e₂ - t).toNat = x.significand * 2 ^ k * m₂ := by
    have scaled : ((m₁ * 2 ^ j : Nat) : ℚ) * 2 ^ (t + e₂) =
        (x.significand * 2 ^ k * m₂ : Nat) * 2 ^ (t + e₂) := by
      have upper : e₁ = j + t + e₂ := by omega
      have result : x.exponent = k + t := by omega
      rw [Magnitude.value, upper, result] at value
      simp only [two_zpow_add, zpow_natCast] at value ⊢
      push_cast
      linarith
    rw [shift, Int.toNat_natCast, Nat.shiftLeft_eq]
    exact_mod_cast mul_right_cancel₀ (two_zpow_pos _).ne' scaled
  show roundWithAccuracy Format.binary64 .positive (m₁ <<< (e₁ - e₂ - t).toNat / m₂) t
    (accuracyOfFraction (m₁ <<< (e₁ - e₂ - t).toNat % m₂) m₂) = _
  rw [quotient, Nat.mul_div_cancel _ pos₂, Nat.mul_mod_left, show t = x.exponent - k by omega]
  exact roundWithAccuracy_exact h .positive k

end Round

section Natural

variable {n : Nat}

/-- A natural number of at most 53 bits with its digits moved up until they are 53. -/
def naturalMagnitude (n : Nat) : Magnitude :=
  ⟨n * 2 ^ (52 - n.log2), -((52 - n.log2 : Nat) : Int)⟩

theorem naturalMagnitude_bounds (pos : 0 < n) (bounded : n < 2 ^ 53) :
    2 ^ 52 ≤ (naturalMagnitude n).significand ∧ (naturalMagnitude n).significand < 2 ^ 53 := by
  have short := (Nat.log2_lt (Nat.ne_of_gt pos)).mpr bounded
  obtain ⟨k, shift⟩ : ∃ k, 52 - n.log2 = k := ⟨_, rfl⟩
  rw [naturalMagnitude, shift, show 52 = n.log2 + k by omega, show 53 = n.log2 + 1 + k by omega,
    Nat.pow_add, Nat.pow_add _ (n.log2 + 1)]
  exact ⟨Nat.mul_le_mul_right _ (Nat.log2_self_le (Nat.ne_of_gt pos)),
    Nat.mul_lt_mul_of_pos_right Nat.lt_log2_self (Nat.two_pow_pos k)⟩

theorem canonical_naturalMagnitude (pos : 0 < n) (bounded : n < 2 ^ 53) :
    Canonical (naturalMagnitude n) := by
  obtain ⟨lower, upper⟩ := naturalMagnitude_bounds pos bounded
  refine ⟨Nat.lt_of_lt_of_le (Nat.two_pow_pos 52) lower, upper, ?_, ?_, .inr lower⟩
  · show -1074 ≤ -((52 - n.log2 : Nat) : Int)
    omega
  · show -((52 - n.log2 : Nat) : Int) ≤ 971
    omega

theorem value_naturalMagnitude (n : Nat) : (naturalMagnitude n).value = n := by
  rw [Magnitude.value, naturalMagnitude, Nat.cast_mul, natCast_two_pow, mul_assoc, ← two_zpow_add,
    Int.add_right_neg, zpow_zero, mul_one]

/-- The natural numbers up to `2 ^ 53` are magnitudes of doubles, with all bits in use. -/
theorem exists_canonical_natural (pos : 0 < n) (bounded : n ≤ 2 ^ 53) :
    ∃ x, Canonical x ∧ 2 ^ 52 ≤ x.significand ∧ x.value = n := by
  obtain rfl | short : n = 2 ^ 53 ∨ n < 2 ^ 53 := by omega
  · refine ⟨⟨2 ^ 52, 1⟩, ⟨by decide, by decide, by decide, by decide, by decide⟩, Nat.le_refl _, ?_⟩
    norm_num [Magnitude.value]
  · exact ⟨_, canonical_naturalMagnitude pos short, (naturalMagnitude_bounds pos short).1,
      value_naturalMagnitude n⟩

end Natural

section Scientific

variable {x : Magnitude} {n : Nat} {e : Int}

theorem Canonical.le_value (h : Canonical x) : (2 : ℚ) ^ minExponent ≤ x.value := by
  have one : (1 : ℚ) ≤ x.significand := Nat.one_le_cast.mpr h.positive
  calc (2 : ℚ) ^ minExponent ≤ 2 ^ x.exponent := zpow_le_zpow_right₀ one_le_two h.least
    _ ≤ x.significand * 2 ^ x.exponent := le_mul_of_one_le_left (two_zpow_pos _).le one

theorem Canonical.value_lt_two_zpow (h : Canonical x) : x.value < 2 ^ (53 + x.exponent) := by
  have bounded : (x.significand : ℚ) < (2 ^ 53 : Nat) := Nat.cast_lt.mpr h.bounded
  calc x.value < (2 ^ 53 : Nat) * 2 ^ x.exponent :=
        mul_lt_mul_of_pos_right bounded (two_zpow_pos _)
    _ = 2 ^ (53 + x.exponent) := by rw [natCast_two_pow, two_zpow_add, Nat.cast_ofNat]

theorem Canonical.value_lt (h : Canonical x) : x.value < 2 ^ (1024 : Int) := by
  have greatest := h.greatest
  exact h.value_lt_two_zpow.trans_le (zpow_le_zpow_right₀ one_le_two (by omega))

theorem two_zpow_le_ten_zpow (nonneg : 0 ≤ e) : (2 : ℚ) ^ e ≤ 10 ^ e :=
  zpow_le_zpow_left₀ nonneg two_pos.le (by norm_num)

theorem ten_zpow_le_two_zpow (nonpos : e ≤ 0) : (10 : ℚ) ^ e ≤ 2 ^ e := by
  have inverse := two_zpow_le_ten_zpow (Int.neg_nonneg_of_nonpos nonpos)
  rw [zpow_neg, zpow_neg] at inverse
  exact (inv_le_inv₀ (two_zpow_pos e) (zpow_pos (by norm_num) e)).mp inverse

/-- The decimals that are in the range of the doubles are neither too large nor too small to be
converted. -/
theorem exponent_bounds (h : Canonical x) (value : (n : ℚ) * 10 ^ e = x.value) :
    0 < n ∧ e ≤ 2 ^ 11 ∧ -(2 ^ 11 + (n.log2 : Int)) ≤ e := by
  have least := h.le_value
  have greatest := h.value_lt
  have pos : 0 < n := by
    obtain rfl | pos := Nat.eq_zero_or_pos n
    · rw [Nat.cast_zero, zero_mul] at value
      exact absurd (value ▸ least) (two_zpow_pos _).not_ge
    · exact pos
  refine ⟨pos, ?_, ?_⟩
  · by_contra large
    have one : (1 : ℚ) ≤ n := Nat.one_le_cast.mpr pos
    have : (2 : ℚ) ^ e < 2 ^ (1024 : Int) :=
      calc (2 : ℚ) ^ e ≤ 10 ^ e := two_zpow_le_ten_zpow (by omega)
        _ ≤ n * 10 ^ e := le_mul_of_one_le_left (zpow_pos (by norm_num) e).le one
        _ < 2 ^ (1024 : Int) := value ▸ greatest
    have := (zpow_lt_zpow_iff_right₀ one_lt_two).mp this
    omega
  · by_contra small
    have : (2 : ℚ) ^ minExponent < 2 ^ totalExponent n e :=
      calc (2 : ℚ) ^ minExponent ≤ n * 10 ^ e := value ▸ least
        _ ≤ n * 2 ^ e :=
            mul_le_mul_of_nonneg_left (ten_zpow_le_two_zpow (by omega)) (Nat.cast_nonneg n)
        _ < 2 ^ totalExponent n e := value_lt_two_zpow n e
    have := (zpow_lt_zpow_iff_right₀ one_lt_two).mp this
    simp only [minExponent, totalExponent] at this
    omega

theorem ofScientific_exact (h : Canonical x) (value : (n : ℚ) * 10 ^ e = x.value) :
    UnpackedFloat.ofScientific Format.binary64 n e =
      .finite .positive x.significand x.exponent h.positive := by
  obtain ⟨pos, greatest, least⟩ := exponent_bounds h value
  rw [UnpackedFloat.ofScientific, dif_neg (Nat.ne_of_gt pos), if_neg (by simpa using greatest),
    if_neg (by simpa using least)]
  split
  · next nonneg =>
    obtain ⟨k, rfl⟩ := Int.eq_ofNat_of_zero_le nonneg
    apply mul_exact h
    · show 2 ^ 52 ≤ n <<< 53
      rw [Nat.shiftLeft_eq]
      omega
    · show ((n <<< 53 : Nat) : ℚ) * 2 ^ (-53 : Int) * ((10 ^ k : Nat) * 2 ^ (0 : Int)) = x.value
      rw [← value, Nat.shiftLeft_eq, Nat.cast_mul, natCast_two_pow, mul_assoc (n : ℚ),
        ← two_zpow_add, zpow_natCast]
      push_cast
      norm_num
  · next negative =>
    obtain ⟨k, eq⟩ := Int.eq_ofNat_of_zero_le (show 0 ≤ -e by omega)
    apply div_exact h
    rw [← value, eq, Int.toNat_natCast, show e = -k by omega]
    push_cast
    rw [zpow_neg, zpow_natCast, mul_one, mul_one, inv_mul_cancel_right₀ (by positivity)]

end Scientific

end Reckoner.Binary64
