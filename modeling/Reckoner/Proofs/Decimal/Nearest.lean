import Reckoner.Decimal.Rounding
import Reckoner.Proofs.Binary64.Nearest
import Reckoner.Proofs.Decimal.Conversion

/-!
# Decimals are converted to the nearest double

Both ways in which a decimal is converted round once, and correctly. What a decimal is converted to
depends on its value alone, and between two decimals for the same double there is none for another.
-/

namespace Reckoner.Decimal

open Float.Model (Format UnpackedFloat totalExponent)
open Float.Model.UnpackedFloat
open Binary64

-- Powers of natural numbers are the ones of the core library here, whatever else is imported.
attribute [local instance (high)] instPowNat

/-- A quotient is rounded to the nearest natural number. -/
theorem nearestEven_roundDiv (a : Nat) {b : Nat} (pos : 0 < b) :
    NearestEven (a / b) (roundDiv a b) := by
  have divisor : (0 : ℚ) < b := Nat.cast_pos.mpr pos
  have bounded : ((a % b : Nat) : ℚ) / b < 1 := by
    rw [div_lt_one divisor]
    exact_mod_cast Nat.mod_lt a pos
  have nonneg : (0 : ℚ) ≤ (a % b : Nat) / b := by positivity
  rw [div_eq_add_mod a pos]
  obtain less | half | more := lt_trichotomy (2 * (a % b)) b
  · have below : ((a % b : Nat) : ℚ) / b < 1 / 2 := by
      rw [div_lt_div_iff₀ divisor two_pos]
      exact_mod_cast (show a % b * 2 < 1 * b by omega)
    rw [show roundDiv a b = a / b from if_pos (.inl less)]
    exact nearestEven_of_near (by rw [abs_lt]; constructor <;> linarith)
  · have middle : ((a % b : Nat) : ℚ) / b = 1 / 2 := by
      rw [div_eq_div_iff divisor.ne' two_ne_zero]
      exact_mod_cast (show a % b * 2 = 1 * b by omega)
    rw [middle]
    by_cases even : a / b % 2 = 0
    · rw [show roundDiv a b = a / b from if_pos (.inr ⟨half, even⟩)]
      exact ⟨by norm_num, fun _ => even⟩
    · rw [show roundDiv a b = a / b + 1 from if_neg (by omega)]
      exact ⟨by norm_num, fun _ => by omega⟩
  · have above : 1 / 2 < ((a % b : Nat) : ℚ) / b := by
      rw [div_lt_div_iff₀ two_pos divisor]
      exact_mod_cast (show 1 * b < a % b * 2 by omega)
    rw [show roundDiv a b = a / b + 1 from if_neg (by omega)]
    apply nearestEven_of_near
    push_cast
    rw [abs_lt]
    constructor <;> linarith

section Range

variable {q : ℚ}

theorem exists_rounding (nonneg : 0 ≤ q) : ∃ v, Rounding q v := by
  have scaled : 0 ≤ q / 2 ^ unit q := div_nonneg nonneg (two_zpow_pos _).le
  generalize scale : q / 2 ^ unit q = r at scaled
  have quotient : (r.num.toNat : ℚ) / r.den = r := by
    rw [← Int.cast_natCast, Int.toNat_of_nonneg (Rat.num_nonneg.mpr scaled), Rat.num_div_den]
  refine ⟨_, roundDiv r.num.toNat r.den, ?_, rfl⟩
  have nearest := nearestEven_roundDiv r.num.toNat r.den_pos
  rw [quotient] at nearest
  rwa [scale]

/-- What lies between two numbers that are rounded alike is rounded as they are. -/
theorem rounding_of_between {p r v : ℚ} (hp : Rounding p v) (hr : Rounding r v) (pos : 0 < p)
    (low : p ≤ q) (high : q ≤ r) : Rounding q v := by
  obtain ⟨w, hq⟩ := exists_rounding (pos.le.trans low)
  rwa [le_antisymm (hp.mono hq pos low) (hq.mono hr (pos.trans_le low) high)]

theorem nearestDouble_infinity (large : 2 ^ (1024 : Int) ≤ q) :
    NearestDouble q (.infinity .positive) := by
  have pos := (two_zpow_pos 1024).trans_le large
  obtain ⟨v, rounding⟩ := exists_rounding pos.le
  have value : ((2 ^ 52 : Nat) : ℚ) * 2 ^ (972 : Int) = 2 ^ (1024 : Int) := by
    rw [natCast_two_pow, ← two_zpow_add]
    rfl
  have same : unit (2 ^ (1024 : Int)) = 972 :=
    unit_eq (two_zpow_pos 1024) (by decide) (zpow_lt_zpow_right₀ one_lt_two (by decide))
      (.inr (zpow_le_zpow_right₀ one_le_two (by decide)))
  have power : Rounding (2 ^ (1024 : Int)) ((2 ^ 52 : Nat) * 2 ^ (972 : Int)) := by
    apply rounding_of_near same
    rw [value, sub_self, abs_zero]
    exact two_zpow_pos _
  have reached := power.mono rounding (two_zpow_pos 1024) large
  rw [value] at reached
  exact .infinite rounding reached

theorem nearestDouble_zero (pos : 0 < q) (small : q < 2 ^ (minExponent - 1)) :
    NearestDouble q (.zero .positive) := by
  have same : unit q = minExponent := by
    apply unit_eq pos le_rfl _ (.inl rfl)
    exact small.trans_le (zpow_le_zpow_right₀ one_le_two (by omega))
  have rounding := rounding_of_near (n := 0) same (by simpa [abs_of_pos pos] using small)
  rw [Nat.cast_zero, zero_mul] at rounding
  exact .finite rounding (.zero .positive)

end Range

variable {d : Decimal} {n : Nat} {e : Int}

theorem nearestDouble_ofScientific (pos : 0 < n) : NearestDouble (n * 10 ^ e)
    (unpack Format.binary64 (pack Format.binary64
      (UnpackedFloat.ofScientific Format.binary64 n e))) := by
  have units : (1 : ℚ) ≤ n := Nat.one_le_cast.mpr pos
  have power : (0 : ℚ) < 10 ^ e := zpow_pos (by norm_num) e
  rw [UnpackedFloat.ofScientific, dif_neg (Nat.ne_of_gt pos)]
  split
  · next large =>
    rw [unpack_pack_infinity]
    apply nearestDouble_infinity
    have large : (2 : Int) ^ 11 < e := large
    calc (2 : ℚ) ^ (1024 : Int) ≤ 2 ^ e := zpow_le_zpow_right₀ one_le_two (by omega)
      _ ≤ 10 ^ e := two_zpow_le_ten_zpow (by omega)
      _ ≤ n * 10 ^ e := le_mul_of_one_le_left power.le units
  · split
    · next small =>
      rw [unpack_pack_zero]
      apply nearestDouble_zero (by positivity)
      have small : e < -((2 : Int) ^ 11 + n.log2) := small
      calc (n : ℚ) * 10 ^ e ≤ n * 2 ^ e :=
            mul_le_mul_of_nonneg_left (ten_zpow_le_two_zpow (by omega)) (Nat.cast_nonneg n)
        _ < 2 ^ totalExponent n e := value_lt_two_zpow n e
        _ ≤ 2 ^ (minExponent - 1) :=
            zpow_le_zpow_right₀ one_le_two (by simp only [totalExponent, minExponent]; omega)
    · split
      · next nonneg =>
        obtain ⟨k, rfl⟩ := Int.eq_ofNat_of_zero_le nonneg
        have product : ((n <<< 53 : Nat) : ℚ) * 2 ^ (-53 : Int) * ((10 ^ k : Nat) * 2 ^ (0 : Int)) =
            n * 10 ^ (k : Int) := by
          rw [Nat.shiftLeft_eq, Nat.cast_mul, natCast_two_pow, mul_assoc (n : ℚ), ← two_zpow_add,
            zpow_natCast]
          push_cast
          norm_num
        rw [← product]
        apply nearestDouble_mul
        apply le_target_of_filled
        have shifted : 2 ^ 52 ≤ n <<< 53 := by
          rw [Nat.shiftLeft_eq]
          omega
        exact shifted.trans (Nat.le_mul_of_pos_right _ (Nat.pow_pos (by decide)))
      · next negative =>
        obtain ⟨k, rfl⟩ : ∃ k : Nat, e = -k := ⟨e.natAbs, by omega⟩
        have quotient : (n : ℚ) * 2 ^ (0 : Int) / ((10 ^ k : Nat) * 2 ^ (0 : Int)) =
            n * 10 ^ (-k : Int) := by
          rw [zpow_zero, mul_one, mul_one, zpow_neg, zpow_natCast, div_eq_mul_inv]
          push_cast
          rfl
        have exponent : (- -(k : Int)).toNat = k := by omega
        rw [← quotient]
        simp only [exponent]
        exact nearestDouble_div pos _

/-- Every positive decimal is converted to the double nearest to it. -/
theorem nearestDouble_toFloat (pos : 0 < d.significand) :
    NearestDouble d.value d.toFloat.toModel.unpack := by
  rcases toModel_toFloat_cases d with ⟨short, m₂, e₂, pos₂, power, converted⟩ | converted
  · obtain ⟨m₁, e₁, pos₁, natural, filled, number⟩ := natural_exact pos short
    rw [converted, natural]
    split
    · next negative =>
      have exponent : d.exponent = -d.exponent.natAbs := by omega
      have quotient : d.value = m₁ * 2 ^ e₁ / (m₂ * 2 ^ e₂) := by
        rw [number, power, Decimal.value, exponent, zpow_neg, Int.natAbs_neg, Int.natAbs_natCast,
          zpow_natCast, div_eq_mul_inv]
      rw [quotient]
      exact nearestDouble_div pos₁ pos₂
    · next nonnegative =>
      have exponent : d.exponent = d.exponent.natAbs := by omega
      have product : d.value = m₁ * 2 ^ e₁ * (m₂ * 2 ^ e₂) := by
        rw [number, power, Decimal.value, exponent, Int.natAbs_natCast, zpow_natCast]
      rw [product]
      apply nearestDouble_mul pos₁ pos₂
      exact le_target_of_filled (filled.trans (Nat.le_mul_of_pos_right m₁ pos₂))
  · rw [converted]
    exact nearestDouble_ofScientific pos

theorem toFloat_of_zero (zero : d.significand = 0) :
    d.toFloat = .ofModel (.pack (.zero .positive)) := by
  rcases toModel_toFloat_cases d with ⟨_, m, e, pos, _, converted⟩ | converted
  · have natural : (0 : Nat).toUInt64.toFloat.toModel.unpack = .zero .positive := rfl
    rw [zero, natural] at converted
    split at converted <;> exact congrArg Float.ofModel converted
  · rw [zero, UnpackedFloat.ofScientific, dif_pos rfl] at converted
    exact congrArg Float.ofModel converted

section Reads

variable {x : Float}

/-- The decimals for a positive double are those that are rounded to its value. -/
theorem toFloat_eq_iff (finite : x.isFinite = true) (nonnegative : isNegative x = false)
    (nonzero : (magnitude x).significand ≠ 0) :
    d.toFloat = x ↔ 0 < d.value ∧ Rounding d.value (magnitude x).value := by
  rcases unpack_eq_magnitude finite nonnegative with ⟨_, zero⟩ | ⟨_, unpacked, canonical⟩
  · rw [zero] at nonzero
    exact absurd rfl nonzero
  · have value : HasValue x.toModel.unpack (magnitude x).value := by
      rw [unpacked]
      exact .finite .positive canonical
    obtain zero | pos := Nat.eq_zero_or_pos d.significand
    · have none : d.value = 0 := by rw [Decimal.value, zero, Nat.cast_zero, zero_mul]
      rw [toFloat_of_zero zero, none]
      refine iff_of_false (fun same => ?_) fun h => lt_irrefl _ h.1
      have nothing := (congrArg (fun y => y.toModel.unpack) same).trans unpacked
      cases nothing
    · have nearest := nearestDouble_toFloat pos
      have positive : 0 < d.value :=
        mul_pos (Nat.cast_pos.mpr pos) (zpow_pos (by norm_num) _)
      constructor
      · rintro same
        rw [same] at nearest
        exact ⟨positive, nearest.rounding value⟩
      · rintro ⟨_, rounding⟩
        have same := nearest.eq_of_rounding value canonical.value_pos.ne' rounding positive
        rw [← pack_unpack_double x, ← same, pack_unpack_double]

end Reads

end Reckoner.Decimal
