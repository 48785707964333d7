import Mathlib.Data.Int.Log
import Reckoner.Proofs.Binary64.Arithmetic

/-!
# Correct rounding

A positive number is rounded to a whole number of units, where the unit is that of the last of 53
digits or, for small numbers, the least subnormal. It is the nearest whole number, and the even one
of two that are equally near. Rounding is monotone, so all numbers between two that are rounded to
the same double are rounded to it as well.
-/

namespace Reckoner.Binary64

open Float.Model (Format UnpackedFloat totalExponent)
open Float.Model.UnpackedFloat

-- Powers of natural numbers are the ones of the core library here, whatever else is imported.
attribute [local instance (high)] instPowNat

/-- The natural number that is nearest to a number, and the even one if two are. -/
structure NearestEven (q : ℚ) (n : Nat) : Prop where
  near : |q - n| ≤ 1 / 2
  even : |q - n| = 1 / 2 → n % 2 = 0

section NearestEven

variable {p q : ℚ} {m n : Nat}

theorem NearestEven.mono (hp : NearestEven p m) (hq : NearestEven q n) (le : p ≤ q) : m ≤ n := by
  by_contra less
  have next : (n : ℚ) + 1 ≤ m := by exact_mod_cast (show n + 1 ≤ m by omega)
  have lower := (abs_le.mp hp.near).1
  have upper := (abs_le.mp hq.near).2
  -- Both numbers are the half between `n` and `n + 1`, and only one of these is even.
  have below : p - m = -(1 / 2) := by linarith
  have above : q - n = 1 / 2 := by linarith
  have even := hp.even (by rw [below]; norm_num)
  have even' := hq.even (by rw [above]; norm_num)
  have neighbours : m = n + 1 := by
    have : (m : ℚ) = n + 1 := by linarith
    exact_mod_cast this
  omega

theorem NearestEven.unique (hm : NearestEven q m) (hn : NearestEven q n) : m = n :=
  Nat.le_antisymm (hm.mono hn le_rfl) (hn.mono hm le_rfl)

theorem nearestEven_of_near (near : |q - n| < 1 / 2) : NearestEven q n :=
  ⟨near.le, fun half => absurd half near.ne⟩

end NearestEven

/-- The exponent of the unit that a positive number is rounded to. -/
def unit (q : ℚ) : Int :=
  max (Int.log 2 q - 52) minExponent

/-- The number that a positive one is rounded to while the exponent may be as large as it likes. -/
def Rounding (q v : ℚ) : Prop :=
  ∃ n : Nat, NearestEven (q / 2 ^ unit q) n ∧ v = n * 2 ^ unit q

section Rounding

variable {p q v w : ℚ} {k : Int} {x : Magnitude}

theorem unit_mono (pos : 0 < p) (le : p ≤ q) : unit p ≤ unit q := by
  have := Int.log_mono_right (b := 2) pos le
  unfold unit
  omega

theorem lt_unit (q : ℚ) : q < 2 ^ (unit q + 53) := by
  have bound := Int.lt_zpow_succ_log_self (b := 2) one_lt_two q
  rw [Nat.cast_ofNat] at bound
  refine bound.trans_le (zpow_le_zpow_right₀ one_le_two ?_)
  unfold unit
  omega

theorem unit_le (pos : 0 < q) (normal : minExponent < unit q) : 2 ^ (unit q + 52) ≤ q := by
  have bound := Int.zpow_log_le_self (b := 2) one_lt_two pos
  rw [Nat.cast_ofNat] at bound
  refine le_trans (zpow_le_zpow_right₀ one_le_two ?_) bound
  unfold unit at normal ⊢
  omega

theorem unit_eq (pos : 0 < q) (least : minExponent ≤ k) (upper : q < 2 ^ (k + 53))
    (lower : k = minExponent ∨ 2 ^ (k + 52) ≤ q) : unit q = k := by
  have above : Int.log 2 q < k + 53 := by
    apply (Int.lt_zpow_iff_log_lt one_lt_two pos).mp
    rwa [Nat.cast_ofNat]
  rcases lower with first | lower
  · unfold unit
    omega
  · have below : k + 52 ≤ Int.log 2 q := by
      apply (Int.zpow_le_iff_le_log one_lt_two pos).mp
      rwa [Nat.cast_ofNat]
    unfold unit
    omega

theorem Rounding.mono (hp : Rounding p v) (hq : Rounding q w) (pos : 0 < p) (le : p ≤ q) :
    v ≤ w := by
  obtain ⟨m, nearest, rfl⟩ := hp
  obtain ⟨n, nearest', rfl⟩ := hq
  obtain same | less := (unit_mono pos le).eq_or_lt
  · rw [← same] at nearest' ⊢
    have units := nearest.mono nearest'
      (div_le_div_of_nonneg_right le (two_zpow_pos (unit p)).le)
    exact mul_le_mul_of_nonneg_right (Nat.cast_le.mpr units) (two_zpow_pos _).le
  · -- A power of two stands between the numbers, and it is a whole number of either unit.
    have least : minExponent ≤ unit p := le_max_right _ _
    have upper : m ≤ 2 ^ 53 := by
      apply nearest.mono (nearestEven_of_near (n := 2 ^ 53) (q := 2 ^ (53 : Int)) ?_)
      · rw [div_le_iff₀ (two_zpow_pos _), ← two_zpow_add, add_comm]
        exact (lt_unit p).le
      · rw [natCast_two_pow]
        norm_num
    have lower : 2 ^ 52 ≤ n := by
      apply NearestEven.mono (nearestEven_of_near (n := 2 ^ 52) (q := 2 ^ (52 : Int)) ?_) nearest'
      · rw [le_div_iff₀ (two_zpow_pos _), ← two_zpow_add, add_comm]
        exact unit_le (pos.trans_le le) (by omega)
      · rw [natCast_two_pow]
        norm_num
    calc (m : ℚ) * 2 ^ unit p ≤ (2 ^ 53 : Nat) * 2 ^ unit p :=
          mul_le_mul_of_nonneg_right (Nat.cast_le.mpr upper) (two_zpow_pos _).le
      _ = 2 ^ (53 + unit p) := by rw [natCast_two_pow, two_zpow_add, Nat.cast_ofNat]
      _ ≤ 2 ^ (52 + unit q) := zpow_le_zpow_right₀ one_le_two (by omega)
      _ = (2 ^ 52 : Nat) * 2 ^ unit q := by rw [natCast_two_pow, two_zpow_add, Nat.cast_ofNat]
      _ ≤ n * 2 ^ unit q :=
          mul_le_mul_of_nonneg_right (Nat.cast_le.mpr lower) (two_zpow_pos _).le

theorem rounding_of_near {n : Nat} (same : unit q = k) (near : |q - n * 2 ^ k| < 2 ^ (k - 1)) :
    Rounding q (n * 2 ^ k) := by
  have half : (2 : ℚ) ^ (k - 1) = 1 / 2 * 2 ^ k := by
    rw [zpow_sub_one₀ two_ne_zero]
    ring
  refine ⟨n, nearestEven_of_near ?_, by rw [same]⟩
  rw [same, div_sub' (two_zpow_pos k).ne', abs_div, abs_of_pos (two_zpow_pos k),
    div_lt_iff₀ (two_zpow_pos k), mul_comm (2 ^ k : ℚ), ← half]
  exact near

theorem Rounding.unique (hv : Rounding q v) (hw : Rounding q w) (pos : 0 < q) : v = w :=
  le_antisymm (hv.mono hw pos le_rfl) (hw.mono hv pos le_rfl)

/-- A number that is near to that of a double, measured by its size, is rounded to it. -/
theorem Canonical.rounding_of_near (h : Canonical x) (near : |q - x.value| * 2 ^ 54 < x.value) :
    Rounding q x.value := by
  have least := h.least
  have bounded : x.value + 2 ^ x.exponent ≤ 2 ^ (x.exponent + 53) := by
    have units : (x.significand : ℚ) + 1 ≤ 2 ^ 53 := by exact_mod_cast h.bounded
    calc x.value + 2 ^ x.exponent = (x.significand + 1) * 2 ^ x.exponent := by
          rw [add_one_mul, Magnitude.value]
      _ ≤ 2 ^ 53 * 2 ^ x.exponent := mul_le_mul_of_nonneg_right units (two_zpow_pos _).le
      _ = 2 ^ (x.exponent + 53) := by rw [add_comm, two_zpow_add]; rfl
  have half : (2 : ℚ) ^ (x.exponent + 53) = 2 ^ (x.exponent - 1) * 2 ^ 54 := by
    rw [show x.exponent + 53 = x.exponent - 1 + 54 by omega, two_zpow_add]
    rfl
  have double : (2 : ℚ) ^ x.exponent = 2 * 2 ^ (x.exponent - 1) := by
    rw [zpow_sub_one₀ two_ne_zero]
    ring
  have small := two_zpow_pos (x.exponent - 1)
  have distance : |q - x.value| < 2 ^ (x.exponent - 1) := by
    linarith
  obtain ⟨above, below⟩ := abs_lt.mp distance
  have positive : 0 < q := by
    have := abs_lt.mp ((lt_div_iff₀ (by norm_num)).mpr near)
    have := h.value_pos
    linarith
  by_cases lower : x.exponent = minExponent ∨ 2 ^ (x.exponent + 52) ≤ q
  · exact Binary64.rounding_of_near (unit_eq positive least (by linarith) lower) distance
  · -- The number is below the least one with 53 digits at this exponent, so it has a finer unit.
    obtain ⟨normal, less⟩ := not_or.mp lower
    have filled := h.filled.resolve_left normal
    have power : (2 : ℚ) ^ (x.exponent + 52) = 2 ^ 52 * 2 ^ x.exponent := by
      rw [add_comm, two_zpow_add]
      rfl
    have digits : x.significand = 2 ^ 52 := by
      by_contra other
      have units : (2 : ℚ) ^ 52 + 1 ≤ x.significand := by
        exact_mod_cast (show 2 ^ 52 + 1 ≤ x.significand by omega)
      have := mul_le_mul_of_nonneg_right units (two_zpow_pos x.exponent).le
      rw [← Magnitude.value, add_one_mul, ← power] at this
      linarith
    have value : x.value = (2 ^ 53 : Nat) * 2 ^ (x.exponent - 1) := by
      rw [Magnitude.value, digits, double]
      push_cast
      ring
    have double' : (2 : ℚ) ^ (x.exponent - 1) = 2 * 2 ^ (x.exponent - 1 - 1) := by
      rw [zpow_sub_one₀ two_ne_zero (x.exponent - 1)]
      ring
    have finer : (2 : ℚ) ^ (x.exponent - 1 + 52) = 2 ^ 52 * 2 ^ (x.exponent - 1) := by
      rw [add_comm, two_zpow_add]
      rfl
    have same : Binary64.unit q = x.exponent - 1 := by
      apply unit_eq positive (by omega)
      · rwa [show x.exponent - 1 + 53 = x.exponent + 52 by omega, ← not_le]
      · right
        rw [value] at above
        push_cast at above
        linarith
    rw [value] at near ⊢
    apply Binary64.rounding_of_near same
    push_cast at near ⊢
    linarith

theorem Canonical.rounding (h : Canonical x) : Rounding x.value x.value := by
  apply h.rounding_of_near
  rw [sub_self, abs_zero, zero_mul]
  exact h.value_pos

end Rounding

/-- The bits behind a mantissa tell where a number is between it and the next one: at either end of
the lower half, or within one of the halves. -/
def Stands : ExtendedMantissa → ℚ → Prop
  | ⟨m, false, false⟩, q => q = m
  | ⟨m, false, true⟩, q => m < q ∧ q < m + 1 / 2
  | ⟨m, true, false⟩, q => q = m + 1 / 2
  | ⟨m, true, true⟩, q => m + 1 / 2 < q ∧ q < m + 1

section Stands

variable {em : ExtendedMantissa} {q : ℚ} {m : Nat} {e : Int} {accuracy : Accuracy}

theorem Stands.shiftRightOne (h : Stands em q) : Stands em.shiftRightOne (q / 2) := by
  obtain ⟨m, round, sticky⟩ := em
  obtain ⟨j, rfl | rfl⟩ : ∃ j, m = 2 * j ∨ m = 2 * j + 1 := ⟨m / 2, by omega⟩
  · have half : 2 * j / 2 = j := by omega
    have even : (2 * j % 2 != 0) = false := by simp
    rw [ExtendedMantissa.shiftRightOne, half, even]
    cases round <;> cases sticky <;> simp only [Stands, Bool.or_false, Bool.or_true] at h ⊢ <;>
      push_cast at h <;> first | constructor <;> linarith | linarith
  · have half : (2 * j + 1) / 2 = j := by omega
    have odd : ((2 * j + 1) % 2 != 0) = true := by simp
    rw [ExtendedMantissa.shiftRightOne, half, odd]
    cases round <;> cases sticky <;> simp only [Stands, Bool.or_false, Bool.or_true] at h ⊢ <;>
      push_cast at h <;> first | constructor <;> linarith | linarith

theorem Stands.shiftRight (h : Stands em q) (k : Nat) : Stands (em >>> k) (q / 2 ^ k) := by
  induction k with
  | zero =>
      rw [pow_zero, div_one]
      exact h
  | succ k ih =>
      have next := ih.shiftRightOne
      rw [div_div, ← pow_succ] at next
      exact next

theorem Stands.nearestEven (h : Stands em q) : NearestEven q em.roundedMantissa := by
  obtain ⟨m, _ | _, _ | _⟩ := em <;>
    simp only [Stands, ExtendedMantissa.roundedMantissa, ExtendedMantissa.accuracy,
      Accuracy.roundToNearestEven] at h ⊢
  · subst h
    exact nearestEven_of_near (by norm_num)
  · exact nearestEven_of_near (by rw [abs_lt]; constructor <;> linarith)
  · subst h
    obtain even | odd := Nat.mod_two_eq_zero_or_one m
    · rw [even]
      exact ⟨by norm_num, fun _ => even⟩
    · rw [odd]
      exact ⟨by norm_num, fun _ => by omega⟩
  · apply nearestEven_of_near
    push_cast
    rw [abs_lt]
    constructor <;> linarith

theorem div_eq_add_mod (a : Nat) {b : Nat} (pos : 0 < b) :
    (a : ℚ) / b = (a / b : Nat) + (a % b : Nat) / b := by
  have divisor : (b : ℚ) ≠ 0 := Nat.cast_ne_zero.mpr (Nat.ne_of_gt pos)
  rw [div_eq_iff divisor, add_mul, div_mul_cancel₀ _ divisor]
  exact_mod_cast (Nat.div_add_mod' a b).symm

/-- The bits that a quotient of natural numbers is cut off with. -/
theorem stands_quotient (a : Nat) {b : Nat} (pos : 0 < b) :
    Stands (.ofMantissaAndAccuracy (a / b) (accuracyOfFraction (a % b) b)) (a / b) := by
  have divisor : (0 : ℚ) < b := Nat.cast_pos.mpr pos
  have bounded : ((a % b : Nat) : ℚ) / b < 1 := by
    rw [div_lt_one divisor]
    exact_mod_cast Nat.mod_lt a pos
  rw [div_eq_add_mod a pos, accuracyOfFraction]
  generalize a / b = n
  generalize a % b = r at bounded ⊢
  split
  · next none =>
    rw [none]
    simp [Stands, ExtendedMantissa.ofMantissaAndAccuracy]
  · next some =>
    have positive : (0 : ℚ) < r / b := div_pos (by exact_mod_cast Nat.pos_of_ne_zero some) divisor
    obtain less | half | more := lt_trichotomy (2 * r) b
    · have : (r : ℚ) / b < 1 / 2 := by
        rw [div_lt_div_iff₀ divisor two_pos]
        exact_mod_cast (show r * 2 < 1 * b by omega)
      rw [compare_lt_iff_lt.mpr less]
      exact ⟨by linarith, by linarith⟩
    · have : (r : ℚ) / b = 1 / 2 := by
        rw [div_eq_div_iff divisor.ne' two_ne_zero]
        exact_mod_cast (show r * 2 = 1 * b by omega)
      rw [compare_eq_iff_eq.mpr half, this]
      rfl
    · have : 1 / 2 < (r : ℚ) / b := by
        rw [div_lt_div_iff₀ two_pos divisor]
        exact_mod_cast (show 1 * b < r * 2 by omega)
      rw [compare_gt_iff_gt.mpr more]
      exact ⟨by linarith, by linarith⟩

theorem Stands.bounds (h : Stands em q) : (em.mantissa : ℚ) ≤ q ∧ q < em.mantissa + 1 := by
  obtain ⟨m, _ | _, _ | _⟩ := em <;> simp only [Stands] at h ⊢ <;> constructor <;> linarith

end Stands

/-- What a double can be that is the nearest one to a positive number, with infinity for the numbers
that are rounded to `2 ^ 1024` or more. -/
inductive NearestDouble (q : ℚ) : UnpackedFloat → Prop
  | finite {f : UnpackedFloat} {v : ℚ} : Rounding q v → HasValue f v → NearestDouble q f
  | infinite {v : ℚ} : Rounding q v → (2 : ℚ) ^ (1024 : Int) ≤ v →
      NearestDouble q (.infinity .positive)

section NearestDouble

variable {p q r a : ℚ} {f g : UnpackedFloat} {m n : Nat} {e t : Int}

theorem nearestDouble_finite {pos : 0 < m} (bounded : m < 2 ^ 53) (least : minExponent ≤ e)
    (filled : e = minExponent ∨ 2 ^ 52 ≤ m) (rounding : Rounding q (m * 2 ^ e)) :
    NearestDouble q
      (unpack Format.binary64 (pack Format.binary64 (.finite .positive m e pos))) := by
  obtain large | greatest := lt_or_ge 971 e
  · have digits : (2 : ℚ) ^ 52 ≤ m := by
      have normal : e ≠ minExponent := fun first => absurd (first ▸ large) (by decide)
      exact_mod_cast filled.resolve_left normal
    rw [unpack_pack_large pos large]
    apply NearestDouble.infinite rounding
    calc (2 : ℚ) ^ (1024 : Int) = 2 ^ 52 * 2 ^ (972 : Int) := two_zpow_add 52 972
      _ ≤ m * 2 ^ e := mul_le_mul digits (zpow_le_zpow_right₀ one_le_two (by omega))
          (two_zpow_pos _).le (Nat.cast_nonneg m)
  · have canonical : Canonical ⟨m, e⟩ := ⟨pos, bounded, least, greatest, filled⟩
    rw [unpack_pack canonical]
    exact .finite rounding (.finite .positive canonical)

theorem Rounded.nearestDouble (h : Rounded .positive n t f) (rounding : Rounding q (n * 2 ^ t)) :
    NearestDouble q (unpack Format.binary64 (pack Format.binary64 f)) := by
  cases h with
  | zero =>
      rw [Nat.cast_zero, zero_mul] at rounding
      rw [unpack_pack_zero]
      exact .finite rounding (.zero .positive)
  | finite pos bounded least filled => exact nearestDouble_finite bounded least filled rounding
  | carried least =>
      rw [two_pow_mul_carried] at rounding
      exact nearestDouble_finite (by decide) (by omega) (.inr (Nat.le_refl _)) rounding

/-- A positive number is rounded correctly from the units that are kept of it and the bits behind
them. -/
theorem nearestDouble_roundWithAccuracy {accuracy : Accuracy} (le : e ≤ target m e) (pos : 0 < q)
    (stands : Stands (.ofMantissaAndAccuracy m accuracy) (q / 2 ^ e)) :
    NearestDouble q (unpack Format.binary64 (pack Format.binary64
      (roundWithAccuracy Format.binary64 .positive m e accuracy))) := by
  obtain ⟨j, reach⟩ := exists_reach le
  obtain ⟨bounded, filled⟩ := kept_bounds j reach
  have least : minExponent ≤ target m e := by
    rw [target_eq]
    exact le_max_right _ _
  have shifted : q / 2 ^ e / 2 ^ j = q / 2 ^ target m e := by
    rw [← reach, two_zpow_add, zpow_natCast, div_div]
  have kept := stands.shiftRight j
  obtain ⟨floor, below⟩ := kept.bounds
  rw [shifted, mantissa_kept] at floor below
  rw [le_div_iff₀ (two_zpow_pos _)] at floor
  rw [div_lt_iff₀ (two_zpow_pos _)] at below
  have same : unit q = target m e := by
    apply unit_eq pos least
    · have short : ((m / 2 ^ j : Nat) : ℚ) + 1 ≤ 2 ^ 53 := by exact_mod_cast bounded
      rw [add_comm, two_zpow_add]
      exact below.trans_le (mul_le_mul_of_nonneg_right short (two_zpow_pos _).le)
    · refine filled.imp_right fun digits => le_trans ?_ floor
      have long : (2 : ℚ) ^ 52 ≤ (m / 2 ^ j : Nat) := by exact_mod_cast digits
      rw [add_comm, two_zpow_add]
      exact mul_le_mul_of_nonneg_right long (two_zpow_pos _).le
  apply (rounded_roundWithAccuracy .positive accuracy j reach).nearestDouble
  refine ⟨_, ?_, by rw [same]⟩
  rw [same, ← shifted]
  exact kept.nearestEven

theorem nearestDouble_mul {m₁ m₂ : Nat} {e₁ e₂ : Int} (pos₁ : 0 < m₁) (pos₂ : 0 < m₂)
    (le : e₁ + e₂ ≤ target (m₁ * m₂) (e₁ + e₂)) :
    NearestDouble (m₁ * 2 ^ e₁ * (m₂ * 2 ^ e₂)) (unpack Format.binary64 (pack Format.binary64
      (mul Format.binary64 (.finite .positive m₁ e₁ pos₁) (.finite .positive m₂ e₂ pos₂)))) := by
  apply nearestDouble_roundWithAccuracy le
  · have : (0 : ℚ) < m₁ := Nat.cast_pos.mpr pos₁
    have : (0 : ℚ) < m₂ := Nat.cast_pos.mpr pos₂
    positivity
  · show _ = ((m₁ * m₂ : Nat) : ℚ)
    rw [div_eq_iff (two_zpow_pos _).ne', two_zpow_add]
    push_cast
    ring

theorem nearestDouble_div {m₁ m₂ : Nat} {e₁ e₂ : Int} (pos₁ : 0 < m₁) (pos₂ : 0 < m₂) :
    NearestDouble (m₁ * 2 ^ e₁ / (m₂ * 2 ^ e₂)) (unpack Format.binary64 (pack Format.binary64
      (div Format.binary64 (.finite .positive m₁ e₁ pos₁) (.finite .positive m₂ e₂ pos₂)))) := by
  obtain ⟨n, t, exponent, le, quotient⟩ := divCore_eq e₁ e₂ pos₁ pos₂
  have dividend : (0 : ℚ) < m₁ := Nat.cast_pos.mpr pos₁
  have divisor : (0 : ℚ) < m₂ := Nat.cast_pos.mpr pos₂
  simp only [UnpackedFloat.div, quotient]
  apply nearestDouble_roundWithAccuracy le
  · positivity
  · have scaled : (m₁ * 2 ^ e₁ / (m₂ * 2 ^ e₂) / 2 ^ t : ℚ) = (m₁ * 2 ^ n : Nat) / m₂ := by
      rw [exponent, two_zpow_add, two_zpow_add, zpow_natCast]
      push_cast
      field_simp
    rw [scaled]
    exact stands_quotient _ pos₂

theorem HasValue.lt (h : HasValue f a) : a < 2 ^ (1024 : Int) := by
  cases h with
  | zero => exact two_zpow_pos 1024
  | finite s h =>
      cases s with
      | positive => exact h.value_lt
      | negative => exact (neg_neg_of_pos h.value_pos).trans (two_zpow_pos 1024)

theorem NearestDouble.rounding (h : NearestDouble q f) (value : HasValue f a) : Rounding q a := by
  cases h with
  | finite rounding own =>
      rw [value.unique own]
      exact rounding
  | infinite => cases value

theorem NearestDouble.eq_of_rounding (h : NearestDouble q g) (value : HasValue f a)
    (nonzero : a ≠ 0) (rounding : Rounding q a) (pos : 0 < q) : g = f := by
  cases h with
  | finite own has =>
      rw [own.unique rounding pos] at has
      exact has.eq_of_ne_zero value nonzero
  | infinite own large => exact absurd (large.trans (own.mono rounding pos le_rfl)) value.lt.not_ge

end NearestDouble

end Reckoner.Binary64
