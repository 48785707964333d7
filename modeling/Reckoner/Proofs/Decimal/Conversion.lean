import Reckoner.Decimal.Basic
import Reckoner.Proofs.Binary64.Exact

/-!
# The conversion of decimals to doubles

A decimal is converted by one multiplication or division of doubles where its parts are doubles
themselves, and else by the same operation on numbers of any length. Either way a decimal that some
double stands for is converted to that double. Every decimal is converted to a number with a
positive sign, which may be infinite.
-/

namespace Reckoner.Decimal

open Float.Model (Format UnpackedFloat totalExponent)
open Float.Model.UnpackedFloat
open Binary64

-- Powers of natural numbers are the ones of the core library here, whatever else is imported.
attribute [local instance (high)] instPowNat

/-- The number that a decimal stands for. -/
def value (d : Decimal) : ℚ :=
  d.significand * 10 ^ d.exponent

section Operands

variable {n : Nat}

theorem powersOfTen_table : ∀ k : Fin Float.exactlyRepresentablePowersOfTen.size,
    let x := Float.exactlyRepresentablePowersOfTen[k]
    x.isFinite = true ∧ isNegative x = false ∧
      (magnitude x).ratio.1 = 10 ^ k.val * (magnitude x).ratio.2 := by
  decide +kernel

/-- The powers of ten in the table are exact. -/
theorem powerOfTen_exact {k : Nat} (h : k < Float.exactlyRepresentablePowersOfTen.size) :
    ∃ (m : Nat) (e : Int) (pos : 0 < m),
      Float.exactlyRepresentablePowersOfTen[k].toModel.unpack = .finite .positive m e pos ∧
        (m : ℚ) * 2 ^ e = 10 ^ k := by
  obtain ⟨finite, nonnegative, ratio⟩ := powersOfTen_table ⟨k, h⟩
  simp only [Fin.getElem_fin] at finite nonnegative ratio
  generalize Float.exactlyRepresentablePowersOfTen[k] = x at finite nonnegative ratio ⊢
  have value := (magnitude x).value_mul_denominator
  have denominator : ((magnitude x).ratio.2 : ℚ) ≠ 0 :=
    Nat.cast_ne_zero.mpr (Nat.ne_of_gt (Nat.two_pow_pos _))
  rw [ratio, Nat.cast_mul] at value
  have power := mul_right_cancel₀ denominator value
  rcases unpack_eq_magnitude finite nonnegative with ⟨_, zero⟩ | ⟨pos, unpacked, _⟩
  · rw [zero, Magnitude.value, Nat.cast_zero, zero_mul] at power
    exact absurd power.symm (by positivity)
  · refine ⟨_, _, pos, unpacked, power.trans ?_⟩
    push_cast
    rfl

/-- Natural numbers of at most 53 bits are converted exactly. -/
theorem natural_exact (pos : 0 < n) (bounded : n < 2 ^ 53) :
    ∃ (m : Nat) (e : Int) (pos : 0 < m),
      n.toUInt64.toFloat.toModel.unpack = .finite .positive m e pos ∧ 2 ^ 52 ≤ m ∧
        (m : ℚ) * 2 ^ e = n := by
  obtain ⟨x, canonical, filled, value⟩ := exists_canonical_natural pos (Nat.le_of_lt bounded)
  refine ⟨x.significand, x.exponent, canonical.positive, ?_, filled, value⟩
  have word : n.toUInt64.toNat = n := Nat.mod_eq_of_lt (by omega)
  have whole : ((n : Int) : ℚ) * 2 ^ (0 : Int) = x.value := by
    rw [value, zpow_zero, mul_one, Int.cast_natCast]
  show unpack Format.binary64
    (pack Format.binary64 (UnpackedFloat.ofNat Format.binary64 n.toUInt64.toNat)) = _
  rw [word, UnpackedFloat.ofNat, UnpackedFloat.ofInt, normalize_exact canonical .positive whole]
  exact unpack_pack canonical

end Operands

section Convert

variable {d : Decimal} {m : Magnitude}

/-- The two ways in which a decimal is converted. -/
theorem toModel_toFloat_cases (d : Decimal) :
    (d.significand < 2 ^ 53 ∧ ∃ (m : Nat) (e : Int) (pos : 0 < m),
      (m : ℚ) * 2 ^ e = 10 ^ d.exponent.natAbs ∧
        let natural := d.significand.toUInt64.toFloat.toModel.unpack
        let power : UnpackedFloat := .finite .positive m e pos
        d.toFloat.toModel = .pack (if d.exponent < 0 then div Format.binary64 natural power
          else mul Format.binary64 natural power)) ∨
      d.toFloat.toModel =
        .pack (UnpackedFloat.ofScientific Format.binary64 d.significand d.exponent) := by
  by_cases short : d.significand < 2 ^ 53 ∧ d.exponent.natAbs ≤ 22
  · have listed : d.exponent.natAbs < Float.exactlyRepresentablePowersOfTen.size :=
      Nat.lt_succ_of_le short.2
    obtain ⟨m, e, pos, power, value⟩ := powerOfTen_exact listed
    refine .inl ⟨short.1, m, e, pos, value, ?_⟩
    by_cases negative : d.exponent < 0
    · simp only [if_pos negative, ← power]
      rw [toFloat, Float.ofScientific, dif_pos short, decide_eq_true negative]
      rfl
    · simp only [if_neg negative, ← power]
      rw [toFloat, Float.ofScientific, dif_pos short, decide_eq_false negative]
      rfl
  · right
    have exponent : (if decide (d.exponent < 0) = true then Int.negOfNat d.exponent.natAbs
        else Int.ofNat d.exponent.natAbs) = d.exponent := by
      simp only [decide_eq_true_eq, Int.negOfNat_eq, Int.ofNat_eq_natCast]
      split <;> omega
    rw [toFloat, Float.ofScientific, dif_neg short]
    show Float.Model.ofScientific d.significand _ = _
    rw [exponent, Float.Model.ofScientific]

/-- A decimal with the value of a double other than zero is converted to that double. -/
theorem toModel_toFloat (h : Canonical m) (value : d.value = m.value) :
    d.toFloat.toModel = .pack (.finite .positive m.significand m.exponent h.positive) := by
  rcases toModel_toFloat_cases d with ⟨short, m₂, e₂, pos₂, power, converted⟩ | converted
  · obtain ⟨pos, _, _⟩ := exponent_bounds h value
    obtain ⟨m₁, e₁, pos₁, natural, filled, number⟩ := natural_exact pos short
    rw [converted, natural]
    split
    · next negative =>
      have exponent : d.exponent = -d.exponent.natAbs := by omega
      rw [div_exact h]
      rw [number, power, ← value, Decimal.value, exponent, zpow_neg, Int.natAbs_neg,
        Int.natAbs_natCast, zpow_natCast, inv_mul_cancel_right₀ (by positivity)]
    · next nonnegative =>
      have exponent : d.exponent = d.exponent.natAbs := by omega
      rw [mul_exact h filled]
      rw [number, power, ← value, Decimal.value, exponent, Int.natAbs_natCast, zpow_natCast]
  · rw [converted, ofScientific_exact h value]

end Convert

section Sign

variable {f : UnpackedFloat} {m : Nat} {e : Int} {pos : 0 < m}

theorem sign?_roundWithAccuracy (s : Sign) (m : Nat) (e : Int) (accuracy : Accuracy) :
    sign? (roundWithAccuracy Format.binary64 s m e accuracy) = some s := by
  simp only [roundWithAccuracy]
  split <;> rfl

theorem sign?_mul (h : sign? f = some .positive) :
    sign? (mul Format.binary64 f (.finite .positive m e pos)) = some .positive := by
  cases f with
  | notANumber => cases h
  | infinity | zero =>
      cases h
      rfl
  | finite s m' e' pos' =>
      cases h
      exact sign?_roundWithAccuracy _ _ _ _

theorem sign?_div (h : sign? f = some .positive) :
    sign? (div Format.binary64 f (.finite .positive m e pos)) = some .positive := by
  cases f with
  | notANumber => cases h
  | infinity | zero =>
      cases h
      rfl
  | finite s m' e' pos' =>
      cases h
      exact sign?_roundWithAccuracy _ _ _ _

theorem sign?_ofScientific (n : Nat) (e : Int) :
    sign? (UnpackedFloat.ofScientific Format.binary64 n e) = some .positive := by
  unfold UnpackedFloat.ofScientific
  split
  · rfl
  · split
    · rfl
    · split
      · rfl
      · split
        · exact sign?_mul rfl
        · exact sign?_div rfl

theorem sign?_natural (n : UInt64) : sign? n.toFloat.toModel.unpack = some .positive := by
  apply sign?_unpack_pack
  show sign? (UnpackedFloat.normalize Format.binary64 (n.toNat : Int) 0 .positive) = some .positive
  unfold UnpackedFloat.normalize
  split
  · next less =>
    have := Int.compare_eq_lt.mp less
    omega
  · rfl
  · exact sign?_roundWithAccuracy _ _ _ _

/-- Decimals are converted to numbers with a positive sign. -/
theorem sign?_toFloat (d : Decimal) : sign? d.toFloat.toModel.unpack = some .positive := by
  rcases toModel_toFloat_cases d with ⟨_, m, e, pos, _, converted⟩ | converted
  · rw [converted]
    apply sign?_unpack_pack
    split
    · exact sign?_div (sign?_natural _)
    · exact sign?_mul (sign?_natural _)
  · rw [converted]
    exact sign?_unpack_pack (sign?_ofScientific _ _)

end Sign

end Reckoner.Decimal
