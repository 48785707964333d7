import Reckoner.Decimal.Positional
import Reckoner.Decimal.Shortest
import Reckoner.Proofs.Decimal.Conversion

/-!
# Decimals in lowest form

A decimal has the same value with zeros at the end of its digits and without them. Without them it
is the only one of its value. Its digits and its exponent say between which powers of ten it lies.
-/

namespace Reckoner.Decimal

open Binary64

-- Powers of natural numbers are the ones of the core library here, whatever else is imported.
attribute [local instance (high)] instPowNat

/-- The number of digits. -/
def size (d : Decimal) : Nat :=
  (digits d.significand).length

/-- No digit can be saved at the end. -/
def IsLowest (d : Decimal) : Prop :=
  d = ⟨0, 0⟩ ∨ d.significand % 10 ≠ 0

section Lowest

variable {d d' : Decimal}

theorem lowest_zero (e : Int) : lowest ⟨0, e⟩ = ⟨0, 0⟩ := by
  rw [lowest, if_pos rfl]

theorem value_lowest (d : Decimal) : d.lowest.value = d.value := by
  fun_induction lowest d with
  | case1 d zero => simp [value, zero]
  | case2 d nonzero even ih =>
      have significand : d.significand = d.significand / 10 * 10 := by omega
      rw [ih, value, value, zpow_add₀ (by norm_num), zpow_one]
      conv_rhs => rw [significand]
      push_cast
      ring
  | case3 => rfl

/-- Zeros at the end of the significand do not matter. -/
theorem lowest_scale (n k : Nat) (e : Int) : lowest ⟨n * 10 ^ k, e⟩ = lowest ⟨n, e + k⟩ := by
  rcases Nat.eq_zero_or_pos n with rfl | pos
  · rw [Nat.zero_mul, lowest_zero, lowest_zero]
  · induction k generalizing e with
    | zero => simp
    | succ k ih =>
        have tens : n * 10 ^ (k + 1) = n * 10 ^ k * 10 := by rw [Nat.pow_succ, Nat.mul_assoc]
        have nonzero : n * 10 ^ (k + 1) ≠ 0 :=
          Nat.ne_of_gt (Nat.mul_pos pos (Nat.pow_pos (by decide)))
        have exponent : e + 1 + k = e + (k + 1 : Nat) := by omega
        rw [lowest, if_neg nonzero, if_pos (by simp only [tens]; omega)]
        simp only [tens, Nat.mul_div_cancel _ (show 0 < 10 by decide)]
        rw [ih, exponent]

theorem ten_zpow_pos (e : Int) : (0 : ℚ) < 10 ^ e :=
  zpow_pos (by norm_num) e

theorem ten_zpow_add (a b : Int) : (10 : ℚ) ^ (a + b) = 10 ^ a * 10 ^ b :=
  zpow_add₀ (by norm_num) a b

theorem isLowest_lowest (d : Decimal) : d.lowest.IsLowest := by
  fun_induction lowest d with
  | case1 => exact .inl rfl
  | case2 _ _ _ ih => exact ih
  | case3 d _ odd => exact .inr odd

theorem IsLowest.lowest_eq (h : d.IsLowest) : d.lowest = d := by
  obtain rfl | odd := h
  · exact lowest_zero 0
  · rw [lowest, if_neg (by omega), if_neg odd]

theorem lowest_eq_of_value (same : d.value = d'.value) (le : d.exponent ≤ d'.exponent) :
    d.lowest = d'.lowest := by
  obtain ⟨n, e⟩ := d
  obtain ⟨n', e'⟩ := d'
  obtain ⟨k, rfl⟩ : ∃ k : Nat, e' = e + k := ⟨(e' - e).toNat, by simp only at le; omega⟩
  have digits : n = n' * 10 ^ k := by
    simp only [value, ten_zpow_add, zpow_natCast] at same
    rw [mul_comm (10 ^ e : ℚ), ← mul_assoc] at same
    have := mul_right_cancel₀ (ten_zpow_pos e).ne' same
    exact_mod_cast this
  rw [digits, lowest_scale]

/-- Decimals in lowest form differ in their value. -/
theorem IsLowest.eq_of_value (h : d.IsLowest) (h' : d'.IsLowest) (same : d.value = d'.value) :
    d = d' := by
  rw [← h.lowest_eq, ← h'.lowest_eq]
  obtain le | le := le_total d.exponent d'.exponent
  · exact lowest_eq_of_value same le
  · exact (lowest_eq_of_value same.symm le).symm

end Lowest

section Size

variable {d : Decimal} {a b n k : Nat}

theorem length_digits_pos (n : Nat) : 0 < (digits n).length :=
  Nat.length_toDigits_pos

theorem lt_pow_length_digits (n : Nat) : n < 10 ^ (digits n).length :=
  (Nat.length_toDigits_le_iff (by decide) (length_digits_pos n)).mp le_rfl

theorem pow_length_digits_le (pos : 0 < n) : 10 ^ ((digits n).length - 1) ≤ n := by
  by_contra less
  obtain one | more : (digits n).length - 1 = 0 ∨ 0 < (digits n).length - 1 := by omega
  · rw [one, Nat.pow_zero] at less
    omega
  · have := (Nat.length_toDigits_le_iff (by decide) more).mpr (Nat.lt_of_not_le less)
    have := length_digits_pos n
    simp only [digits] at *
    omega

theorem natCast_ten_pow (n : Nat) : ((10 ^ n : Nat) : ℚ) = 10 ^ (n : Int) := by
  rw [zpow_natCast]
  norm_cast

/-- The powers of ten around a decimal. -/
theorem value_bounds (pos : 0 < d.significand) :
    10 ^ (d.size + d.exponent - 1) ≤ d.value ∧ d.value < 10 ^ (d.size + d.exponent) := by
  have counted := length_digits_pos d.significand
  have lower : ((10 ^ (d.size - 1) : Nat) : ℚ) ≤ d.significand :=
    Nat.cast_le.mpr (pow_length_digits_le pos)
  have upper : (d.significand : ℚ) < (10 ^ d.size : Nat) :=
    Nat.cast_lt.mpr (lt_pow_length_digits d.significand)
  have exponent : (d.size + d.exponent - 1 : Int) = (d.size - 1 : Nat) + d.exponent := by
    unfold size
    omega
  rw [natCast_ten_pow] at lower upper
  rw [exponent, ten_zpow_add, ten_zpow_add]
  exact ⟨mul_le_mul_of_nonneg_right lower (ten_zpow_pos _).le,
    mul_lt_mul_of_pos_right upper (ten_zpow_pos _)⟩

theorem significand_lowest_le (d : Decimal) : d.lowest.significand ≤ d.significand := by
  fun_induction lowest d with
  | case1 => exact Nat.zero_le _
  | case2 d _ _ ih => exact ih.trans (Nat.div_le_self _ _)
  | case3 => exact Nat.le_refl _

theorem size_lowest_le (bound : d.significand ≤ 10 ^ (n + 1)) : d.lowest.size ≤ n + 1 := by
  obtain less | same := bound.lt_or_eq
  · exact (Nat.length_toDigits_le_iff (by decide) n.succ_pos).mpr
      ((significand_lowest_le d).trans_lt less)
  · have one : d.lowest = lowest ⟨1, d.exponent + (n + 1 : Nat)⟩ := by
      rw [← lowest_scale, Nat.one_mul, ← same]
    have digit : d.lowest.size = 1 := by
      rw [one, IsLowest.lowest_eq (.inr (show 1 % 10 ≠ 0 by decide))]
      exact (by decide : (digits 1).length = 1)
    omega

end Size

end Reckoner.Decimal
