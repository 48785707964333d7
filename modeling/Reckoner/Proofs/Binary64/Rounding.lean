import Reckoner.Proofs.Binary64.Value

/-!
# Rounding

A number with too many digits is cut off after 53 of them, or at the least exponent, and then one
unit is added or not. So the result is off by at most one unit of its last digit, and it is never
below a power of two that the number reached, also where it is too large and becomes infinite.
-/

namespace Reckoner.Binary64

open Float.Model (Format UnpackedFloat totalExponent)
open Float.Model.UnpackedFloat

-- Powers of natural numbers are the ones of the core library here, whatever else is imported.
attribute [local instance (high)] instPowNat

/-- The result of rounding to `r` units at exponent `t`. -/
inductive Rounded (s : Sign) : Nat → Int → UnpackedFloat → Prop
  | zero {t : Int} : Rounded s 0 t (.zero s)
  | finite {r : Nat} {t : Int} (pos : 0 < r) : r < 2 ^ 53 → minExponent ≤ t →
      t = minExponent ∨ 2 ^ 52 ≤ r → Rounded s r t (.finite s r t pos)
  /-- One unit more than 53 digits can hold. -/
  | carried {t : Int} : minExponent ≤ t →
      Rounded s (2 ^ 53) t (.finite s (2 ^ 52) (t + 1) (Nat.two_pow_pos 52))

/-- What is infinite or at least `2 ^ k` in magnitude. -/
inductive AtLeast (s : Sign) (k : Int) : UnpackedFloat → Prop
  | infinity : AtLeast s k (.infinity s)
  | finite {x : Magnitude} (h : Canonical x) : (2 : ℚ) ^ k ≤ x.value →
      AtLeast s k (.finite s x.significand x.exponent h.positive)

/-- What a double can be that a number is rounded to. The bound on the error is for the numbers
below `2 ^ k` and is one unit of the last of 53 digits there. -/
structure RoundsTo (q : ℚ) (f : UnpackedFloat) : Prop where
  zero : q = 0 → ∃ s, f = .zero s
  atLeast : ∀ s k, minExponent ≤ k → (2 : ℚ) ^ k ≤ signed s q → AtLeast s k f
  near : ∀ k : Int, minExponent + 53 ≤ k → k ≤ 1023 → |q| < 2 ^ k →
    ∃ b, HasValue f b ∧ |b - q| ≤ 2 ^ (k - 53)

section Cut

variable {m : Nat} {e : Int}

theorem mantissa_shiftRight (em : ExtendedMantissa) (k : Nat) :
    (em >>> k).mantissa = em.mantissa / 2 ^ k := by
  induction k with
  | zero => exact (Nat.div_one _).symm
  | succ k ih =>
      show (em >>> k).mantissa / 2 = _
      rw [ih, Nat.div_div_eq_div_mul, Nat.pow_succ]

theorem mantissa_ofMantissaAndAccuracy (m : Nat) (accuracy : Accuracy) :
    (ExtendedMantissa.ofMantissaAndAccuracy m accuracy).mantissa = m := by
  rcases accuracy with _ | (_ | _ | _) <;> rfl

theorem roundedMantissa_bounds (em : ExtendedMantissa) :
    em.mantissa ≤ em.roundedMantissa ∧ em.roundedMantissa ≤ em.mantissa + 1 := by
  have even := Nat.mod_lt em.mantissa two_pos
  rcases em with ⟨m, _ | _, _ | _⟩ <;>
    simp only [ExtendedMantissa.roundedMantissa, ExtendedMantissa.accuracy,
      Accuracy.roundToNearestEven] at even ⊢ <;> omega

theorem shiftToTargetExponent_eq {k : Nat} (accuracy : Accuracy) (reach : e + k = target m e) :
    shiftToTargetExponent Format.binary64 m e accuracy =
      (ExtendedMantissa.ofMantissaAndAccuracy m accuracy >>> k, target m e) := by
  have shift : (target m e - e).toNat = k := by omega
  show (ExtendedMantissa.ofMantissaAndAccuracy m accuracy >>> (target m e - e).toNat,
    e + ((target m e - e).toNat : Int)) = _
  rw [shift, reach]

/-- The digits that are kept are at most 53, and not fewer above the least exponent. -/
theorem kept_bounds (k : Nat) (reach : e + k = target m e) :
    m / 2 ^ k < 2 ^ 53 ∧ (target m e = minExponent ∨ 2 ^ 52 ≤ m / 2 ^ k) := by
  rw [target_eq] at reach ⊢
  constructor
  · have long : m < 2 ^ (53 + k) :=
      Nat.lt_log2_self.trans_le (Nat.pow_le_pow_right two_pos (by omega))
    rw [Nat.div_lt_iff_lt_mul (Nat.two_pow_pos k), ← Nat.pow_add]
    exact long
  · by_cases least : m.log2 + e - 52 ≤ minExponent
    · exact .inl (max_eq_right least)
    · have digits : m.log2 = 52 + k := by omega
      have nonzero : m ≠ 0 := by
        rintro rfl
        rw [Nat.log2_zero] at digits
        omega
      rw [Nat.le_div_iff_mul_le (Nat.two_pow_pos k), ← Nat.pow_add, ← digits]
      exact .inr (Nat.log2_self_le nonzero)

theorem mantissa_kept (m k : Nat) (accuracy : Accuracy) :
    (ExtendedMantissa.ofMantissaAndAccuracy m accuracy >>> k).mantissa = m / 2 ^ k := by
  rw [mantissa_shiftRight, mantissa_ofMantissaAndAccuracy]

/-- Rounding is done on the digits that are kept, with what the others leave of them. -/
theorem rounded_roundWithAccuracy (s : Sign) (accuracy : Accuracy) (k : Nat)
    (reach : e + k = target m e) :
    Rounded s (ExtendedMantissa.ofMantissaAndAccuracy m accuracy >>> k).roundedMantissa
      (target m e) (roundWithAccuracy Format.binary64 s m e accuracy) := by
  obtain ⟨bounded, filled⟩ := kept_bounds k reach
  have least : minExponent ≤ target m e := by
    rw [target_eq]
    exact le_max_right _ _
  obtain ⟨lower, upper⟩ :=
    roundedMantissa_bounds (ExtendedMantissa.ofMantissaAndAccuracy m accuracy >>> k)
  rw [mantissa_kept] at lower upper
  simp only [roundWithAccuracy]
  rw [shiftToTargetExponent_eq accuracy reach]
  generalize (ExtendedMantissa.ofMantissaAndAccuracy m accuracy >>> k).roundedMantissa = r at *
  generalize target m e = t at *
  obtain rfl | short : r = 2 ^ 53 ∨ r < 2 ^ 53 := by omega
  · have again : target (2 ^ 53) t = t + 1 := by
      rw [target_eq, Nat.log2_two_pow]
      omega
    have half := mantissa_kept (2 ^ 53) 1 .exact
    simp only [shiftToTargetExponent_eq (k := 1) .exact again.symm, half, again]
    exact .carried least
  · replace filled := filled.imp_right (·.trans lower)
    have again := target_of_filled short least filled
    have same := (mantissa_kept r 0 .exact).trans (Nat.div_one r)
    simp only [shiftToTargetExponent_eq (k := 0) .exact ((Int.add_zero t).trans again.symm), same,
      again]
    split
    · next zero =>
      subst zero
      exact .zero
    · next nonzero =>
      exact .finite (Nat.pos_of_ne_zero nonzero) short least filled

/-- Rounding adds at most one unit to the digits that are kept. -/
theorem exists_rounded (s : Sign) (accuracy : Accuracy) (k : Nat) (reach : e + k = target m e) :
    ∃ r, m / 2 ^ k ≤ r ∧ r ≤ m / 2 ^ k + 1 ∧
      Rounded s r (target m e) (roundWithAccuracy Format.binary64 s m e accuracy) := by
  obtain ⟨lower, upper⟩ :=
    roundedMantissa_bounds (ExtendedMantissa.ofMantissaAndAccuracy m accuracy >>> k)
  rw [mantissa_kept] at lower upper
  exact ⟨_, lower, upper, rounded_roundWithAccuracy s accuracy k reach⟩

end Cut

section Packed

variable {s : Sign} {m r : Nat} {e t k : Int} {f : UnpackedFloat}

theorem unpack_pack_infinity (s : Sign) :
    unpack Format.binary64 (pack Format.binary64 (.infinity s)) = .infinity s := by
  cases s <;> rfl

theorem unpack_pack_notANumber :
    unpack Format.binary64 (pack Format.binary64 .notANumber) = .notANumber := rfl

theorem unpack_pack_large (pos : 0 < m) (large : 971 < e) :
    unpack Format.binary64 (pack Format.binary64 (.finite s m e pos)) = .infinity s := by
  rw [pack_finite s e pos, if_pos large, unpack_special, if_pos rfl]

/-- A rounded number that is not too large is canonical, and a larger one becomes infinite. -/
theorem atLeast_pack_finite {pos : 0 < m} (bounded : m < 2 ^ 53) (least : minExponent ≤ e)
    (filled : e = minExponent ∨ 2 ^ 52 ≤ m) (lower : (2 : ℚ) ^ k ≤ m * 2 ^ e) :
    AtLeast s k (unpack Format.binary64 (pack Format.binary64 (.finite s m e pos))) := by
  obtain large | greatest := lt_or_ge 971 e
  · rw [unpack_pack_large pos large]
    exact .infinity
  · have canonical : Canonical ⟨m, e⟩ := ⟨pos, bounded, least, greatest, filled⟩
    rw [unpack_pack canonical]
    exact .finite canonical lower

theorem two_pow_mul_carried (t : Int) :
    ((2 ^ 53 : Nat) : ℚ) * 2 ^ t = (2 ^ 52 : Nat) * 2 ^ (t + 1) := by
  rw [natCast_two_pow, natCast_two_pow, ← two_zpow_add, ← two_zpow_add]
  congr 1
  push_cast
  omega

theorem Rounded.atLeast (h : Rounded s r t f) (lower : (2 : ℚ) ^ k ≤ r * 2 ^ t) :
    AtLeast s k (unpack Format.binary64 (pack Format.binary64 f)) := by
  cases h with
  | zero =>
      rw [Nat.cast_zero, zero_mul] at lower
      exact absurd lower (two_zpow_pos k).not_ge
  | finite pos bounded least filled => exact atLeast_pack_finite bounded least filled lower
  | carried least =>
      rw [two_pow_mul_carried] at lower
      exact atLeast_pack_finite (by decide) (by omega) (.inr (Nat.le_refl _)) lower

theorem Rounded.hasValue (h : Rounded s r t f) (range : t ≤ 970) :
    HasValue (unpack Format.binary64 (pack Format.binary64 f)) (signed s (r * 2 ^ t)) := by
  cases h with
  | zero =>
      have nothing : signed s (((0 : Nat) : ℚ) * 2 ^ t) = 0 := by cases s <;> simp [signed]
      rw [unpack_pack_zero, nothing]
      exact .zero s
  | finite pos bounded least filled =>
      have canonical : Canonical ⟨r, t⟩ := ⟨pos, bounded, least, by show t ≤ 971; omega, filled⟩
      rw [unpack_pack canonical]
      exact .finite s canonical
  | carried least =>
      have canonical : Canonical ⟨2 ^ 52, t + 1⟩ :=
        ⟨Nat.two_pow_pos 52, by show 2 ^ 52 < 2 ^ 53; decide, by show minExponent ≤ t + 1; omega,
          by show t + 1 ≤ 971; omega, .inr (Nat.le_refl _)⟩
      rw [unpack_pack canonical, two_pow_mul_carried]
      exact .finite s canonical

end Packed

section RoundsTo

variable {s : Sign} {m : Nat} {e k : Int} {f : UnpackedFloat} {q a : ℚ}

theorem roundsTo_of_pos (pos : 0 < q)
    (lower : ∀ k, minExponent ≤ k → (2 : ℚ) ^ k ≤ q → AtLeast s k f)
    (near : ∀ k, minExponent + 53 ≤ k → k ≤ 1023 → q < 2 ^ k →
      ∃ b, HasValue f (signed s b) ∧ |b - q| ≤ 2 ^ (k - 53)) :
    RoundsTo (signed s q) f := by
  refine ⟨fun nothing => ?_, fun s' k least le => ?_, fun k least greatest below => ?_⟩
  · rw [← signed_signed_self s q, nothing] at pos
    cases s <;> simp [signed] at pos
  · obtain rfl := sign_eq_of_signed_pos pos ((two_zpow_pos k).trans_le le)
    rw [signed_signed_self] at le
    exact lower k least le
  · rw [abs_signed, abs_of_pos pos] at below
    obtain ⟨b, value, error⟩ := near k least greatest below
    exact ⟨_, value, by rwa [signed_sub, abs_signed]⟩

theorem roundsTo_zero (s : Sign) : RoundsTo 0 (.zero s) := by
  refine ⟨fun _ => ⟨s, rfl⟩, fun s' k _ lower => ?_, fun k _ _ _ => ⟨0, .zero s, ?_⟩⟩
  · have nothing : signed s' 0 = 0 := by cases s' <;> simp [signed]
    exact absurd (lower.trans_eq nothing) (two_zpow_pos k).not_ge
  · rw [sub_self, abs_zero]
    exact (two_zpow_pos _).le

/-- What a double stands for is not changed by rounding. -/
theorem HasValue.roundsTo (h : HasValue f a) : RoundsTo a f := by
  cases h with
  | zero s => exact roundsTo_zero s
  | @finite s x hx =>
      refine roundsTo_of_pos hx.value_pos (fun _ _ lower => .finite hx lower) fun k _ _ _ =>
        ⟨x.value, .finite s hx, ?_⟩
      rw [sub_self, abs_zero]
      exact (two_zpow_pos _).le

theorem exists_reach (le : e ≤ target m e) : ∃ j : Nat, e + j = target m e :=
  ⟨(target m e - e).toNat, by omega⟩

/-- The units kept and one more are on both sides of a number of which `m` units are whole. -/
theorem kept_le_lt {j : Nat} {t : Int} (reach : e + j = t) (floor : (m : ℚ) * 2 ^ e ≤ q)
    (below : q < (m + 1 : Nat) * 2 ^ e) :
    ((m / 2 ^ j : Nat) : ℚ) * 2 ^ t ≤ q ∧ q < (m / 2 ^ j + 1 : Nat) * 2 ^ t := by
  have scale (n : Nat) : (n : ℚ) * 2 ^ t = (n * 2 ^ j : Nat) * 2 ^ e := by
    rw [← reach, two_zpow_add, Nat.cast_mul, natCast_two_pow]
    ring
  rw [scale, scale]
  constructor
  · refine le_trans (mul_le_mul_of_nonneg_right ?_ (two_zpow_pos e).le) floor
    exact Nat.cast_le.mpr (Nat.div_mul_le_self m (2 ^ j))
  · refine below.trans_le (mul_le_mul_of_nonneg_right ?_ (two_zpow_pos e).le)
    have cut : m < (m / 2 ^ j + 1) * 2 ^ j := by
      rw [Nat.mul_comm]
      exact Nat.lt_mul_div_succ m (Nat.two_pow_pos j)
    exact Nat.cast_le.mpr cut

theorem target_le (le : e ≤ target m e) (floor : (m : ℚ) * 2 ^ e ≤ q) (small : q < 2 ^ k)
    (least : minExponent + 53 ≤ k) : target m e ≤ k - 53 := by
  rw [target_eq] at le ⊢
  obtain rfl | pos := Nat.eq_zero_or_pos m
  · simp only [Nat.log2_zero] at le ⊢
    omega
  · have total := totalExponent_le pos (floor.trans_lt small)
    rw [totalExponent] at total
    omega

/-- A positive number of which `m` units at exponent `e` are whole is rounded from these and the
accuracy. -/
theorem roundsTo_roundWithAccuracy (s : Sign) (accuracy : Accuracy) (le : e ≤ target m e)
    (pos : 0 < q) (floor : (m : ℚ) * 2 ^ e ≤ q) (below : q < (m + 1 : Nat) * 2 ^ e) :
    RoundsTo (signed s q) (unpack Format.binary64 (pack Format.binary64
      (roundWithAccuracy Format.binary64 s m e accuracy))) := by
  obtain ⟨j, reach⟩ := exists_reach le
  obtain ⟨r, lower, upper, rounded⟩ := exists_rounded s accuracy j reach
  obtain ⟨_, filled⟩ := kept_bounds j reach
  obtain ⟨kept, next⟩ := kept_le_lt reach floor below
  refine roundsTo_of_pos pos (fun k least power => rounded.atLeast ?_)
    fun k least greatest small => ⟨_, rounded.hasValue ?_, ?_⟩
  · have digits : (2 : ℚ) ^ k ≤ (m / 2 ^ j : Nat) * 2 ^ target m e := by
      obtain above | reached := lt_or_ge k (target m e)
      · have full := filled.resolve_left (by omega)
        have one : (1 : ℚ) ≤ (m / 2 ^ j : Nat) := Nat.one_le_cast.mpr (by omega)
        calc (2 : ℚ) ^ k ≤ 2 ^ target m e := zpow_le_zpow_right₀ one_le_two above.le
          _ ≤ (m / 2 ^ j : Nat) * 2 ^ target m e := le_mul_of_one_le_left (two_zpow_pos _).le one
      · -- The power of two is a whole number of units, so they are all kept.
        obtain ⟨i, units⟩ := Int.eq_ofNat_of_zero_le (Int.sub_nonneg_of_le reached)
        rw [show k = i + target m e by omega, two_zpow_add, ← natCast_two_pow] at power ⊢
        have whole := lt_of_mul_lt_mul_right (power.trans_lt next) (two_zpow_pos _).le
        exact mul_le_mul_of_nonneg_right
          (Nat.cast_le.mpr (Nat.lt_succ_iff.mp (Nat.cast_lt.mp whole))) (two_zpow_pos _).le
    exact digits.trans
      (mul_le_mul_of_nonneg_right (Nat.cast_le.mpr lower) (two_zpow_pos _).le)
  · have := target_le le floor small least
    omega
  · have unit : (2 : ℚ) ^ target m e ≤ 2 ^ (k - 53) :=
      zpow_le_zpow_right₀ one_le_two (target_le le floor small least)
    have low := mul_le_mul_of_nonneg_right (Nat.cast_le (α := ℚ).mpr lower)
      (two_zpow_pos (target m e)).le
    have high := mul_le_mul_of_nonneg_right (Nat.cast_le (α := ℚ).mpr upper)
      (two_zpow_pos (target m e)).le
    rw [Nat.cast_add_one, add_one_mul] at next high
    rw [abs_le]
    constructor <;> linarith

/-- A number is rounded with an error of at most one unit, however it is written. -/
theorem roundsTo_round (s : Sign) (pos : 0 < m) :
    RoundsTo (signed s (m * 2 ^ e)) (unpack Format.binary64 (pack Format.binary64
      (UnpackedFloat.round Format.binary64 s m e))) := by
  have value := value_decreaseExponent m e (target m e)
  have pos' : 0 < (decreaseExponent m e (target m e)).1 := by
    show 0 < m <<< _
    rw [Nat.shiftLeft_eq]
    exact Nat.mul_pos pos (Nat.two_pow_pos _)
  have same : target (decreaseExponent m e (target m e)).1
      (decreaseExponent m e (target m e)).2 = target m e :=
    target_congr pos' pos value
  apply roundsTo_roundWithAccuracy s .exact ((decreaseExponent_le ..).trans_eq same.symm)
  · exact mul_pos (Nat.cast_pos.mpr pos) (two_zpow_pos e)
  · exact value.le
  · rw [← value]
    exact mul_lt_mul_of_pos_right (Nat.cast_lt.mpr (Nat.lt_succ_self _)) (two_zpow_pos _)

theorem roundsTo_normalize (d e : Int) (zero : Sign) :
    RoundsTo (d * 2 ^ e) (unpack Format.binary64 (pack Format.binary64
      (UnpackedFloat.normalize Format.binary64 d e zero))) := by
  obtain negative | rfl | positive := lt_trichotomy d 0
  · obtain ⟨n, opposite⟩ := Int.eq_ofNat_of_zero_le (neg_nonneg.mpr negative.le)
    obtain rfl : d = -n := by omega
    rw [UnpackedFloat.normalize, Int.compare_eq_lt.mpr negative, Int.cast_neg, Int.cast_natCast,
      neg_mul, neg_neg]
    exact roundsTo_round .negative (by omega)
  · rw [Int.cast_zero, zero_mul]
    show RoundsTo 0 (unpack _ (pack _ (.zero zero)))
    rw [unpack_pack_zero]
    exact roundsTo_zero zero
  · obtain ⟨n, rfl⟩ := Int.eq_ofNat_of_zero_le positive.le
    rw [UnpackedFloat.normalize, Int.compare_eq_gt.mpr positive, Int.cast_natCast]
    exact roundsTo_round .positive (by omega)

end RoundsTo

section Order

variable {x c : Float} {q : ℚ} {k : Int}

theorem lt_of_atLeast (h : AtLeast .positive k x.toModel.unpack)
    (value : HasValue c.toModel.unpack q) (less : q < 2 ^ k) : c < x := by
  rw [lt_iff_compare]
  generalize x.toModel.unpack = f at h
  cases h with
  | infinity =>
      generalize c.toModel.unpack = g at value
      cases value with
      | zero => rfl
      | finite s => cases s <;> rfl
  | finite canonical lower =>
      rw [value.compare_eq (.finite .positive canonical), Option.some.injEq, compare_lt_iff_lt]
      exact less.trans_le lower

theorem not_lt_of_atLeast (h : AtLeast .positive k x.toModel.unpack)
    (value : HasValue c.toModel.unpack q) (le : q ≤ 2 ^ k) : ¬ x < c := by
  rw [lt_iff_compare]
  generalize x.toModel.unpack = f at h
  cases h with
  | infinity =>
      generalize c.toModel.unpack = g at value
      cases value <;> exact nofun
  | finite canonical lower =>
      rw [(HasValue.finite .positive canonical).compare_eq value, Option.some.injEq,
        compare_lt_iff_lt]
      exact (le.trans lower).not_gt

/-- Only the negative infinity is below a number without being finite. -/
theorem unpack_of_lt (less : x < c) (value : HasValue c.toModel.unpack q) :
    x.toModel.unpack = .infinity .negative ∨ x.isFinite = true := by
  rw [lt_iff_compare] at less
  show _ ∨ x.toModel.unpack.isFinite = true
  generalize x.toModel.unpack = f at less
  cases f with
  | notANumber => cases less
  | zero | finite => exact .inr rfl
  | infinity s =>
      cases s with
      | negative => exact .inl rfl
      | positive =>
          generalize c.toModel.unpack = g at less value
          cases value <;> cases less

end Order

end Reckoner.Binary64
