import Reckoner.Proofs.Binary64.Arithmetic
import Reckoner.Proofs.Decimal.Conversion

/-!
# Natural numbers among the doubles

Every natural number up to `2 ^ 53` is a double. Sums and differences of such doubles, their order
and their whole parts are those of the numbers, as no result needs more digits than a double has.
-/

namespace Reckoner.Binary64

open Float.Model (Format UnpackedFloat totalExponent)
open Float.Model.UnpackedFloat

-- Powers of natural numbers are the ones of the core library here, whatever else is imported.
attribute [local instance (high)] instPowNat

variable {n k a b : Nat} {x : Magnitude}

theorem unpack_ofNat_zero : (Float.ofNat 0).toModel.unpack = .zero .positive := unpack_zero

theorem unpack_ofNat (h : Canonical x) (value : x.value = n) :
    (Float.ofNat n).toModel.unpack =
      .finite .positive x.significand x.exponent h.positive := by
  have same : (⟨n, 0⟩ : Decimal).value = x.value := by
    rw [value, Decimal.value, zpow_zero, mul_one]
  have converted : (Float.ofNat n).toModel = _ := Decimal.toModel_toFloat h same
  rw [converted]
  exact unpack_pack h

section Order

theorem hasValue_ofNat (bounded : n ≤ 2 ^ 53) : HasValue (Float.ofNat n).toModel.unpack n := by
  obtain rfl | pos := Nat.eq_zero_or_pos n
  · rw [unpack_ofNat_zero, Nat.cast_zero]
    exact .zero .positive
  · obtain ⟨x, canonical, _, value⟩ := exists_canonical_natural pos bounded
    rw [unpack_ofNat canonical value, ← value]
    exact .finite .positive canonical

theorem hasValue_one : HasValue (1 : Float).toModel.unpack 1 := by
  have natural := hasValue_ofNat (n := 1) (by decide)
  rwa [Nat.cast_one] at natural

theorem sign?_ofNat (bounded : n ≤ 2 ^ 53) :
    sign? (Float.ofNat n).toModel.unpack = some .positive := by
  obtain rfl | pos := Nat.eq_zero_or_pos n
  · rw [unpack_ofNat_zero]
    rfl
  · obtain ⟨x, canonical, _, value⟩ := exists_canonical_natural pos bounded
    rw [unpack_ofNat canonical value]
    rfl

theorem isFinite_ofNat (bounded : n ≤ 2 ^ 53) : (Float.ofNat n).isFinite = true :=
  (hasValue_ofNat bounded).isFinite

theorem value_ofNat (bounded : n ≤ 2 ^ 53) : value (Float.ofNat n) = n :=
  value_eq (hasValue_ofNat bounded)

theorem hasValue_neg_ofNat (bounded : n ≤ 2 ^ 53) :
    HasValue (-Float.ofNat n).toModel.unpack (-n) := by
  have negated := hasValue_neg (isFinite_ofNat bounded)
  rwa [value_ofNat bounded] at negated

theorem isNaN_ofNat (bounded : n ≤ 2 ^ 53) : (Float.ofNat n).isNaN = false :=
  (sign?_eq_positive_iff.mp (sign?_ofNat bounded)).1

theorem ofNat_lt_iff (ha : a ≤ 2 ^ 53) (hb : b ≤ 2 ^ 53) :
    Float.ofNat a < Float.ofNat b ↔ a < b := by
  rw [(hasValue_ofNat ha).lt_iff (hasValue_ofNat hb), Nat.cast_lt]

end Order

section Sums

theorem normalize_natural (bounded : n ≤ 2 ^ 53) {d e : Int} (value : (d : ℚ) * 2 ^ e = n) :
    UnpackedFloat.normalize Format.binary64 d e .positive = (Float.ofNat n).toModel.unpack := by
  obtain rfl | pos := Nat.eq_zero_or_pos n
  · have zero : d = 0 := by
      rw [Nat.cast_zero] at value
      exact_mod_cast (mul_eq_zero.mp value).resolve_right (two_zpow_pos e).ne'
    rw [unpack_ofNat_zero, zero]
    rfl
  · obtain ⟨x, canonical, _, same⟩ := exists_canonical_natural pos bounded
    rw [unpack_ofNat canonical same, normalize_exact canonical .positive (value.trans same.symm)]

theorem sub_zero_double (x : Float) : x - Float.ofNat 0 = x := by
  have unchanged : UnpackedFloat.sub Format.binary64 x.toModel.unpack (.zero .positive) =
      x.toModel.unpack := by
    cases x.toModel.unpack with
    | zero s => cases s <;> rfl
    | notANumber | infinity | finite => rfl
  rw [sub_eq_pack, unpack_ofNat_zero, unchanged, pack_unpack_double]

variable {u v : Float} {p q : ℚ}

/-- A difference of two numbers other than zero that is a natural number is computed exactly. -/
theorem sub_eq_ofNat (hu : HasValue u.toModel.unpack p) (hv : HasValue v.toModel.unpack q)
    (hp : p ≠ 0) (hq : q ≠ 0) (bounded : n ≤ 2 ^ 53) (difference : p - q = n) :
    u - v = Float.ofNat n := by
  rw [sub_eq_pack]
  generalize u.toModel.unpack = f at hu
  generalize v.toModel.unpack = g at hv
  cases hu with
  | zero => exact absurd rfl hp
  | finite s hx =>
      cases hv with
      | zero => exact absurd rfl hq
      | finite s' hy =>
          obtain ⟨m, m', e, left, right, exact, _⟩ := exists_common hx hy s s'
          have value : ((m - m' : Int) : ℚ) * 2 ^ e = n := by
            rw [Int.cast_sub, sub_mul, left, right, difference]
          rw [exact, normalize_natural bounded value, pack_unpack_double]

/-- A sum of two numbers other than zero that is a natural number is computed exactly. -/
theorem add_eq_ofNat (hu : HasValue u.toModel.unpack p) (hv : HasValue v.toModel.unpack q)
    (hp : p ≠ 0) (hq : q ≠ 0) (bounded : n ≤ 2 ^ 53) (sum : p + q = n) :
    u + v = Float.ofNat n := by
  rw [add_eq_pack]
  generalize u.toModel.unpack = f at hu
  generalize v.toModel.unpack = g at hv
  cases hu with
  | zero => exact absurd rfl hp
  | finite s hx =>
      cases hv with
      | zero => exact absurd rfl hq
      | finite s' hy =>
          obtain ⟨m, m', e, left, right, _, exact⟩ := exists_common hx hy s s'
          have value : ((m + m' : Int) : ℚ) * 2 ^ e = n := by
            rw [Int.cast_add, add_mul, left, right, sum]
          rw [exact, normalize_natural bounded value, pack_unpack_double]

theorem ofNat_sub (le : k ≤ n) (bounded : n ≤ 2 ^ 53) :
    Float.ofNat n - Float.ofNat k = Float.ofNat (n - k) := by
  obtain rfl | pos := Nat.eq_zero_or_pos k
  · exact sub_zero_double (Float.ofNat n)
  · exact sub_eq_ofNat (hasValue_ofNat bounded) (hasValue_ofNat (le.trans bounded))
      (Nat.cast_ne_zero.mpr (by omega)) (Nat.cast_ne_zero.mpr (by omega)) (by omega)
      (Nat.cast_sub le).symm

theorem ofNat_add (hn : 0 < n) (hk : 0 < k) (bounded : n + k ≤ 2 ^ 53) :
    Float.ofNat n + Float.ofNat k = Float.ofNat (n + k) :=
  add_eq_ofNat (hasValue_ofNat (by omega)) (hasValue_ofNat (by omega))
    (Nat.cast_ne_zero.mpr (by omega)) (Nat.cast_ne_zero.mpr (by omega)) bounded
    (Nat.cast_add n k).symm

end Sums

section Whole

theorem value_magnitude_ofNat (bounded : n ≤ 2 ^ 53) : (magnitude (Float.ofNat n)).value = n := by
  have nonnegative := (sign?_eq_positive_iff.mp (sign?_ofNat bounded)).2
  have whole := value_ofNat bounded
  rwa [value, nonnegative] at whole

theorem ratio_of_value (value : x.value = n) : x.ratio.1 = n * x.ratio.2 := by
  have whole := x.value_mul_denominator
  rw [value] at whole
  exact_mod_cast whole.symm

theorem isInteger_ofNat (bounded : n ≤ 2 ^ 53) : isInteger (Float.ofNat n) = true := by
  have ratio := ratio_of_value (value_magnitude_ofNat bounded)
  have whole : (magnitude (Float.ofNat n)).isInteger = true := by
    rw [Magnitude.isInteger, ratio, Nat.mul_mod_left]
    rfl
  rw [isInteger, isFinite_ofNat bounded, whole]
  rfl

theorem floor_ofNat (bounded : n ≤ 2 ^ 53) : (magnitude (Float.ofNat n)).floor = n := by
  have ratio := ratio_of_value (value_magnitude_ofNat bounded)
  have denominator : 0 < (magnitude (Float.ofNat n)).ratio.2 := Nat.two_pow_pos _
  rw [Magnitude.floor, ratio, Nat.mul_div_cancel _ denominator]

end Whole

end Reckoner.Binary64
