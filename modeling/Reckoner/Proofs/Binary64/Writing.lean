import Reckoner.Proofs.Binary64.Value

/-!
# Magnitudes written into bits

A magnitude that fits is written without loss: its significand moves up until it fills its bits or
the exponent is the least one, which leaves the number as it is.
-/

namespace Reckoner.Binary64

open Float.Model (Format UnpackedFloat)
open Float.Model.UnpackedFloat

-- Powers of natural numbers are the ones of the core library here, whatever else is imported.
attribute [local instance (high)] instPowNat

/-- The same number with more digits. -/
def Magnitude.widen (m : Magnitude) (k : Nat) : Magnitude :=
  ⟨m.significand * 2 ^ k, m.exponent - k⟩

section Packing

variable {m : Magnitude}

theorem Magnitude.value_widen (m : Magnitude) (k : Nat) : (m.widen k).value = m.value := by
  rw [value, value, widen, Nat.cast_mul, natCast_two_pow, mul_assoc, ← two_zpow_add,
    add_sub_cancel]

/-- The digits that a magnitude is written into bits with fill them, or the exponent is the least
one. -/
theorem Magnitude.Fits.canonical_widen (h : m.Fits) (pos : 0 < m.significand) :
    Canonical (m.widen (min (52 - m.significand.log2) (m.exponent - minExponent).toNat)) := by
  obtain ⟨bounded, least, greatest⟩ := h
  generalize chosen : min (52 - m.significand.log2) (m.exponent - minExponent).toNat = shift
  have digits := Nat.lt_log2_self (n := m.significand)
  have leading := Nat.log2_self_le (Nat.ne_of_gt pos)
  have width := (Nat.log2_lt (Nat.ne_of_gt pos)).mpr bounded
  have power : 0 < 2 ^ shift := Nat.two_pow_pos _
  constructor
  case positive => exact Nat.mul_pos pos power
  case bounded =>
    calc m.significand * 2 ^ shift < 2 ^ (m.significand.log2 + 1) * 2 ^ shift :=
          Nat.mul_lt_mul_of_pos_right digits power
      _ = 2 ^ (m.significand.log2 + 1 + shift) := (Nat.pow_add ..).symm
      _ ≤ 2 ^ 53 := Nat.pow_le_pow_right (by decide) (by omega)
  case least =>
    show minExponent ≤ m.exponent - shift
    omega
  case greatest =>
    show m.exponent - shift ≤ 971
    omega
  case filled =>
    rcases Nat.le_total (52 - m.significand.log2) (m.exponent - minExponent).toNat with few | many
    · right
      calc 2 ^ 52 = 2 ^ m.significand.log2 * 2 ^ (52 - m.significand.log2) := by
            rw [← Nat.pow_add]
            congr 1
            omega
        _ ≤ m.significand * 2 ^ (52 - m.significand.log2) := Nat.mul_le_mul_right _ leading
        _ = m.significand * 2 ^ shift := by rw [← chosen, Nat.min_eq_left few]
    · left
      show m.exponent - shift = minExponent
      omega

/-- The bits of a canonical magnitude. -/
theorem Canonical.toBitVec_eq (h : Canonical m) :
    (Nat.toUInt64 (if m.significand < 2 ^ fractionBits then m.significand
      else ((m.exponent - minExponent).toNat + 1) * 2 ^ fractionBits +
        (m.significand - 2 ^ fractionBits))).toBitVec =
      pack Format.binary64 (.finite .positive m.significand m.exponent h.positive) := by
  obtain ⟨pos, bounded, least, greatest, filled⟩ := h
  simp only [minExponent] at least filled ⊢
  apply BitVec.eq_of_toNat_eq
  show _ % 2 ^ 64 = _
  rw [fractionBits]
  split
  next small =>
    have lowest : m.exponent = minExponent := filled.resolve_right (Nat.not_le_of_lt small)
    simp only [lowest, pack_small .positive pos small, toNat_packComponents]
    simp [Sign.toBitVec]
    omega
  next large =>
    rw [pack_normal .positive pos bounded (by omega) greatest, toNat_packComponents]
    simp [Sign.toBitVec]
    omega

/-- A magnitude that fits is written into bits as it is. -/
theorem Magnitude.Fits.hasValue_toFloat (h : m.Fits) :
    HasValue m.toFloat.toModel.unpack m.value ∧
      sign? m.toFloat.toModel.unpack = some .positive := by
  obtain zero | pos := Nat.eq_zero_or_pos m.significand
  · have nothing : m.toFloat = 0 := by
      have bits : Float.ofBits (Nat.toUInt64 0) = 0 := by decide +kernel
      simpa [toFloat, zero, fractionBits] using bits
    have number : m.value = 0 := by simp [value, zero]
    rw [nothing, number, unpack_zero]
    exact ⟨.zero .positive, rfl⟩
  · let wide := m.widen (min (52 - m.significand.log2) (m.exponent - minExponent).toNat)
    have canonical : Canonical wide := h.canonical_widen pos
    have number : HasValue (.finite .positive wide.significand wide.exponent canonical.positive)
        m.value := m.value_widen _ ▸ .finite .positive canonical
    have read : m.toFloat.toModel.unpack =
        .finite .positive wide.significand wide.exponent canonical.positive := by
      have written := congrArg (fun bits => unpack Format.binary64 (pack Format.binary64
        (unpack Format.binary64 bits))) canonical.toBitVec_eq
      rw [number.unpack_pack, number.unpack_pack] at written
      exact written
    rw [read]
    exact ⟨number, rfl⟩

end Packing

/-- A double without a sign bit is given a sign. -/
theorem signed_double {u : Float} {q : ℚ} (has : HasValue u.toModel.unpack q)
    (sign : sign? u.toModel.unpack = some .positive) (negative : Bool) :
    let r := if negative then -u else u
    r.isFinite = true ∧ isNegative r = negative ∧ value r = if negative then -q else q := by
  cases negative with
  | false =>
      refine ⟨has.isFinite, Bool.eq_false_iff.mpr fun marked => ?_, value_eq has⟩
      cases (isNegative_iff_of_sign sign).mp marked
  | true =>
      have negated := hasValue_neg has.isFinite
      have opposite : sign? (-u).toModel.unpack = some .negative := by
        rw [unpack_neg has.isFinite]
        generalize u.toModel.unpack = f at sign
        cases f <;> cases sign <;> rfl
      rw [value_eq has] at negated
      exact ⟨negated.isFinite, (isNegative_iff_of_sign opposite).mpr rfl, value_eq negated⟩

end Reckoner.Binary64
