import Reckoner.Proofs.Binary64.Exact

/-!
# The values of finite doubles

A finite double stands for a rational number, and finite doubles are compared as these numbers are.
-/

namespace Reckoner.Binary64

open Float.Model (Format UnpackedFloat totalExponent)
open Float.Model.UnpackedFloat

-- Powers of natural numbers are the ones of the core library here, whatever else is imported.
attribute [local instance (high)] instPowNat

/-- A number with a sign before it. -/
def signed : Sign → ℚ → ℚ
  | .positive, q => q
  | .negative, q => -q

/-- The number that a finite double stands for. -/
def value (x : Float) : ℚ :=
  if isNegative x then -(magnitude x).value else (magnitude x).value

/-- What stands for a number once the fields of a double are read. -/
inductive HasValue : UnpackedFloat → ℚ → Prop
  | zero (s : Sign) : HasValue (.zero s) 0
  | finite (s : Sign) {x : Magnitude} (h : Canonical x) :
      HasValue (.finite s x.significand x.exponent h.positive) (signed s x.value)

section Signs

variable {q : ℚ} {s s' : Sign}

theorem signed_neg (s : Sign) (q : ℚ) : signed (-s) q = -signed s q := by
  cases s
  · exact (neg_neg q).symm
  · rfl

theorem signed_signed_self (s : Sign) (q : ℚ) : signed s (signed s q) = q := by
  cases s
  · exact neg_neg q
  · rfl

theorem abs_signed (s : Sign) (q : ℚ) : |signed s q| = |q| := by
  cases s
  · exact abs_neg q
  · rfl

theorem signed_sub (s : Sign) (p q : ℚ) : signed s p - signed s q = signed s (p - q) := by
  cases s
  · exact neg_sub_neg p q |>.trans (neg_sub p q).symm
  · rfl

/-- A positive number stays positive only under the sign that it has. -/
theorem sign_eq_of_signed_pos (pos : 0 < q) (h : 0 < signed s (signed s' q)) : s = s' := by
  cases s <;> cases s' <;> simp only [signed, neg_neg] at h ⊢ <;> linarith

end Signs

section Values

variable {x y : Float} {f g : UnpackedFloat} {a b : ℚ} {s : Sign} {k : Int}

theorem hasValue (finite : x.isFinite = true) : HasValue x.toModel.unpack (value x) := by
  have number : x.toModel.unpack.isFinite = true := finite
  rcases unpack_cases x with nan | ⟨s, negative, infinite | ⟨zero, digits⟩ | ⟨pos, unpacked, h⟩⟩
  · rw [nan] at number
    cases number
  · rw [infinite] at number
    cases number
  · have nothing : value x = 0 := by simp [value, digits, Magnitude.value]
    rw [zero, nothing]
    exact .zero s
  · have sign : value x = signed s (magnitude x).value := by
      cases s <;> simp_all [value, signed]
    rw [unpacked, sign]
    exact .finite s h

theorem HasValue.isFinite (h : HasValue f a) : f.isFinite = true := by
  cases h <;> rfl

theorem HasValue.unique (hf : HasValue f a) (hf' : HasValue f b) : a = b := by
  cases hf with
  | zero => cases hf'; rfl
  | @finite s x hx =>
      obtain ⟨m, e⟩ := x
      cases hf'
      rfl

theorem value_eq (h : HasValue x.toModel.unpack a) : value x = a :=
  (hasValue h.isFinite).unique h

theorem abs_ite_neg (negative : Bool) (nonneg : 0 ≤ a) : |if negative then -a else a| = a := by
  split
  · rw [abs_neg, abs_of_nonneg nonneg]
  · exact abs_of_nonneg nonneg

theorem abs_value (x : Float) : |value x| = (magnitude x).value :=
  abs_ite_neg (isNegative x) (magnitude x).value_nonneg

theorem significand_pos (nonzero : value x ≠ 0) : 0 < (magnitude x).significand := by
  have pos : 0 < (magnitude x).value := abs_value x ▸ abs_pos.mpr nonzero
  exact Nat.cast_pos.mp (pos_of_mul_pos_left pos (two_zpow_pos _).le)

theorem value_eq_signed_abs (x : Float) :
    value x = if isNegative x then -|value x| else |value x| := by
  rw [abs_value, value]

theorem HasValue.neg (h : HasValue f a) : HasValue f.neg (-a) := by
  cases h with
  | zero s =>
      rw [neg_zero]
      exact .zero (-s)
  | @finite s x hx =>
      rw [← signed_neg]
      exact .finite (-s) hx

theorem unpack_pack_zero (s : Sign) :
    unpack Format.binary64 (pack Format.binary64 (.zero s)) = .zero s := by
  cases s <;> rfl

theorem unpack_zero : (0 : Float).toModel.unpack = .zero .positive := by
  have bits : (0 : Float) = .ofModel (.pack (.zero .positive)) := by decide +kernel
  rw [bits]
  exact unpack_pack_zero .positive

theorem hasValue_zero : HasValue (0 : Float).toModel.unpack 0 :=
  unpack_zero ▸ .zero .positive

theorem hasValue_half : HasValue (0.5 : Float).toModel.unpack (1 / 2) := by
  have canonical : Canonical ⟨2 ^ 52, -53⟩ :=
    ⟨by decide, by decide, by decide, by decide, by decide⟩
  have half : (0.5 : Float) = .ofModel (.pack (.finite .positive (2 ^ 52) (-53) (by decide))) := by
    decide +kernel
  have number : signed .positive (Magnitude.mk (2 ^ 52) (-53)).value = 1 / 2 := by
    norm_num [signed, Magnitude.value]
  rw [half, ← number]
  exact (unpack_pack canonical).symm ▸ HasValue.finite .positive canonical

/-- Reading what was written gives the number back. -/
theorem HasValue.unpack_pack (h : HasValue f a) :
    unpack Format.binary64 (pack Format.binary64 f) = f := by
  cases h with
  | zero s => exact unpack_pack_zero s
  | finite s hx => exact Binary64.unpack_pack hx

theorem unpack_neg (finite : x.isFinite = true) :
    (-x).toModel.unpack = x.toModel.unpack.neg :=
  (hasValue finite).neg.unpack_pack

theorem hasValue_neg (finite : x.isFinite = true) : HasValue (-x).toModel.unpack (-value x) :=
  unpack_neg finite ▸ (hasValue finite).neg

theorem HasValue.abs (h : HasValue f a) : HasValue f.abs |a| ∧ sign? f.abs = some .positive := by
  cases h with
  | zero s =>
      rw [abs_zero]
      exact ⟨.zero .positive, rfl⟩
  | @finite s x hx =>
      rw [abs_signed, abs_of_pos hx.value_pos]
      exact ⟨.finite .positive hx, rfl⟩

/-- The absolute value of a finite double has its magnitude and no sign. -/
theorem magnitude_abs (finite : x.isFinite = true) :
    x.abs.isFinite = true ∧ isNegative x.abs = false ∧ (magnitude x.abs).value = |value x| := by
  obtain ⟨has, sign⟩ := (hasValue finite).abs
  have read : x.abs.toModel.unpack = x.toModel.unpack.abs := has.unpack_pack
  rw [← read] at has sign
  refine ⟨has.isFinite, (sign?_eq_positive_iff.mp sign).2, ?_⟩
  rw [← abs_value, value_eq has, abs_abs]

end Values

section Order

variable {x y : Magnitude} {f g : UnpackedFloat} {a b : ℚ}

/-- The larger exponent has the larger number, as its significand fills its bits. -/
theorem Canonical.value_lt_of_exponent (hx : Canonical x) (hy : Canonical y)
    (less : x.exponent < y.exponent) : x.value < y.value := by
  have filled : 2 ^ 52 ≤ y.significand := by
    have least := hx.least
    exact hy.filled.resolve_left (by omega)
  calc x.value < 2 ^ (53 + x.exponent) := hx.value_lt_two_zpow
    _ ≤ 2 ^ (52 + y.exponent) := zpow_le_zpow_right₀ one_le_two (by omega)
    _ = (2 ^ 52 : Nat) * 2 ^ y.exponent := by rw [natCast_two_pow, two_zpow_add, Nat.cast_ofNat]
    _ ≤ y.value := mul_le_mul_of_nonneg_right (Nat.cast_le.mpr filled) (two_zpow_pos _).le

theorem value_lt_iff_of_exponent (same : x.exponent = y.exponent) :
    x.value < y.value ↔ x.significand < y.significand := by
  rw [Magnitude.value, Magnitude.value, same, mul_lt_mul_iff_left₀ (two_zpow_pos _), Nat.cast_lt]

/-- Numbers are compared by their exponents first. -/
theorem Canonical.compare_eq (hx : Canonical x) (hy : Canonical y) :
    (compare x.exponent y.exponent).then (compare x.significand y.significand) =
      compare x.value y.value := by
  obtain less | same | greater := lt_trichotomy x.exponent y.exponent
  · rw [compare_lt_iff_lt.mpr less, compare_lt_iff_lt.mpr (hx.value_lt_of_exponent hy less)]
    rfl
  · rw [compare_eq_iff_eq.mpr same, Ordering.eq_then]
    obtain less | equal | greater := lt_trichotomy x.significand y.significand
    · rw [compare_lt_iff_lt.mpr less,
        compare_lt_iff_lt.mpr ((value_lt_iff_of_exponent same).mpr less)]
    · have values : x.value = y.value := by rw [Magnitude.value, Magnitude.value, equal, same]
      rw [compare_eq_iff_eq.mpr equal, compare_eq_iff_eq.mpr values]
    · rw [compare_gt_iff_gt.mpr greater,
        compare_gt_iff_gt.mpr ((value_lt_iff_of_exponent same.symm).mpr greater)]
  · rw [compare_gt_iff_gt.mpr greater, compare_gt_iff_gt.mpr (hy.value_lt_of_exponent hx greater)]
    rfl

theorem Canonical.eq_of_value (hx : Canonical x) (hy : Canonical y) (same : x.value = y.value) :
    x = y := by
  obtain less | exponent | greater := lt_trichotomy x.exponent y.exponent
  · exact absurd same (hx.value_lt_of_exponent hy less).ne
  · rw [Magnitude.value, Magnitude.value, exponent] at same
    have significand := Nat.cast_injective (mul_right_cancel₀ (two_zpow_pos _).ne' same)
    obtain ⟨m, e⟩ := x
    obtain ⟨m', e'⟩ := y
    cases significand
    cases exponent
    rfl
  · exact absurd same.symm (hy.value_lt_of_exponent hx greater).ne

/-- A number other than zero is that of one double only. -/
theorem HasValue.eq_of_ne_zero (hf : HasValue f a) (hg : HasValue g a) (nonzero : a ≠ 0) :
    f = g := by
  cases hf with
  | zero => exact absurd rfl nonzero
  | @finite s x hx =>
      generalize same : signed s x.value = b at hg
      cases hg with
      | zero =>
          rw [same] at nonzero
          exact absurd rfl nonzero
      | @finite s' y hy =>
          have positive : 0 < signed s' (signed s x.value) := by
            rw [same, signed_signed_self]
            exact hy.value_pos
          obtain rfl := sign_eq_of_signed_pos hx.value_pos positive
          have values := congrArg (signed s') same
          rw [signed_signed_self, signed_signed_self] at values
          obtain rfl := hx.eq_of_value hy values
          rfl

theorem HasValue.exists_zero (h : HasValue f a) (nothing : a = 0) : ∃ s, f = .zero s := by
  cases h with
  | zero s => exact ⟨s, rfl⟩
  | @finite s x hx =>
      have size := abs_signed s x.value
      rw [nothing, abs_zero, abs_of_pos hx.value_pos] at size
      exact absurd size hx.value_pos.ne

/-- Finite doubles with the same sign bit and the same value are the same. -/
theorem eq_of_value_eq {u v : Float} (hu : u.isFinite = true) (hv : v.isFinite = true)
    (sign : isNegative u = isNegative v) (same : value u = value v) : u = v := by
  have read : u.toModel.unpack = v.toModel.unpack := by
    have has := hasValue hu
    have has' := hasValue hv
    rw [same] at has
    by_cases nothing : value v = 0
    · obtain ⟨s, zero⟩ := has.exists_zero nothing
      obtain ⟨s', zero'⟩ := has'.exists_zero nothing
      have own := isNegative_iff_of_sign (congrArg sign? zero)
      have own' := isNegative_iff_of_sign (congrArg sign? zero')
      rw [sign, own'] at own
      rw [zero, zero']
      cases s <;> cases s' <;> simp_all
    · exact has.eq_of_ne_zero has' nothing
  rw [← pack_unpack_double u, read, pack_unpack_double]

theorem compare_neg_neg (a b : ℚ) : compare (-a) (-b) = (compare a b).swap := by
  obtain less | rfl | greater := lt_trichotomy a b
  · rw [compare_lt_iff_lt.mpr less, compare_gt_iff_gt.mpr (neg_lt_neg less)]
    rfl
  · rw [compare_eq_iff_eq.mpr rfl, compare_eq_iff_eq.mpr rfl]
    rfl
  · rw [compare_gt_iff_gt.mpr greater, compare_lt_iff_lt.mpr (neg_lt_neg greater)]
    rfl

theorem HasValue.compare_eq (hf : HasValue f a) (hg : HasValue g b) :
    f.compare g = some (compare a b) := by
  cases hf with
  | zero =>
      cases hg with
      | zero => rw [compare_eq_iff_eq.mpr rfl]; rfl
      | finite s hy =>
          cases s with
          | positive => rw [signed, compare_lt_iff_lt.mpr hy.value_pos]; rfl
          | negative => rw [signed, compare_gt_iff_gt.mpr (neg_neg_of_pos hy.value_pos)]; rfl
  | @finite s x hx =>
      cases hg with
      | zero =>
          cases s with
          | positive => rw [signed, compare_gt_iff_gt.mpr hx.value_pos]; rfl
          | negative => rw [signed, compare_lt_iff_lt.mpr (neg_neg_of_pos hx.value_pos)]; rfl
      | @finite s' y hy =>
          have opposite : -x.value < y.value :=
            (neg_neg_of_pos hx.value_pos).trans hy.value_pos
          have opposite' : -y.value < x.value :=
            (neg_neg_of_pos hy.value_pos).trans hx.value_pos
          cases s <;> cases s' <;> simp only [signed]
          · rw [compare_neg_neg, ← hx.compare_eq hy]; rfl
          · rw [compare_lt_iff_lt.mpr opposite]; rfl
          · rw [compare_gt_iff_gt.mpr opposite']; rfl
          · exact congrArg some (hx.compare_eq hy)

variable {u v : Float}

theorem lt_iff_compare : u < v ↔ u.toModel.unpack.compare v.toModel.unpack = some .lt := by
  show decide (u.toModel < v.toModel) = true ↔ _
  rw [decide_eq_true_iff]
  show (u.toModel.unpack.compare v.toModel.unpack == some Ordering.lt) = true ↔ _
  rw [beq_iff_eq]

theorem beq_iff_compare :
    (u == v) = true ↔ u.toModel.unpack.compare v.toModel.unpack = some .eq := by
  show (u.toModel.unpack.compare v.toModel.unpack == some Ordering.eq) = true ↔ _
  rw [beq_iff_eq]

theorem beq_zero_iff (finite : u.isFinite = true) : (u == 0) = true ↔ value u = 0 := by
  rw [beq_iff_compare, (hasValue finite).compare_eq hasValue_zero, Option.some.injEq,
    compare_eq_iff_eq]

theorem HasValue.lt_iff (hu : HasValue u.toModel.unpack a) (hv : HasValue v.toModel.unpack b) :
    u < v ↔ a < b := by
  rw [lt_iff_compare, hu.compare_eq hv, Option.some.injEq, compare_lt_iff_lt]

theorem HasValue.le_iff (hu : HasValue u.toModel.unpack a) (hv : HasValue v.toModel.unpack b) :
    u ≤ v ↔ a ≤ b := by
  show decide (u.toModel ≤ v.toModel) = true ↔ _
  rw [decide_eq_true_iff]
  show (u.toModel.unpack.compare v.toModel.unpack).any Ordering.isLE = true ↔ _
  rw [hu.compare_eq hv, Option.any_some, Ordering.isLE_iff_ne_gt]
  exact compare_le_iff_le

end Order

end Reckoner.Binary64
