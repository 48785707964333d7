import Reckoner.Binary64.CubeRoot
import Reckoner.Proofs.Binary64.Writing

/-!
# The cube root is the nearest double

A cube root is no double in general and not even rational, so its place is known by comparing cubes.
The computed significand is less than half a unit away from the root. All doubles that are not
smaller than the binade of the root are whole numbers of these units, and the smaller ones are
further away than the least double of that binade.
-/

namespace Reckoner.Binary64

-- Powers of natural numbers are the ones of the core library here, whatever else is imported.
attribute [local instance (high)] instPowNat

/-- The root lies between the midpoints to the neighbours of a nearest cube root. -/
theorem exists_nearestCubeRoot {n : Nat} (pos : 0 < n) :
    ∃ k, nearestCubeRoot n = k + 1 ∧ (2 * k + 1) ^ 3 < 8 * n ∧ 8 * n < (2 * k + 3) ^ 3 := by
  obtain ⟨below, above⟩ := wholeCubeRoot_bounds (8 * n)
  rw [nearestCubeRoot]
  generalize wholeCubeRoot (8 * n) = r at below above ⊢
  have large : 2 < r + 1 := by
    have eight : 2 ^ 3 < (r + 1) ^ 3 := by omega
    exact (Nat.pow_lt_pow_iff_left (by decide)).mp eight
  refine ⟨(r + 1) / 2 - 1, by omega, ?_⟩
  obtain ⟨k, rfl | rfl⟩ : ∃ k, r = 2 * k + 2 ∨ r = 2 * k + 3 := ⟨(r - 2) / 2, by omega⟩
  · rw [show (2 * k + 2 + 1) / 2 - 1 = k by omega]
    exact ⟨(Nat.pow_lt_pow_left (by omega) (by decide)).trans_le below, above⟩
  · rw [show (2 * k + 3 + 1) / 2 - 1 = k + 1 by omega]
    -- The cube of an odd number is odd, so it is not `8 * n`.
    obtain ⟨j, odd⟩ : Odd ((2 * (k + 1) + 1) ^ 3) := (odd_two_mul_add_one (k + 1)).pow
    refine ⟨?_, above.trans (Nat.pow_lt_pow_left (by omega) (by decide))⟩
    rw [show 2 * k + 3 = 2 * (k + 1) + 1 by omega] at below
    omega

variable {m : Magnitude}

/-- Scaling leaves a natural number with three times as many digits as a significand has. -/
theorem Magnitude.exists_scaled (fits : m.Fits) (pos : 0 < m.significand) :
    ∃ n : Nat, 2 ^ 156 ≤ n ∧ n < 2 ^ 159 ∧ m.cubeRoot.significand = nearestCubeRoot n ∧
      m.value = n * (2 ^ m.cubeRoot.exponent) ^ 3 ∧
      minExponent ≤ m.cubeRoot.exponent ∧ m.cubeRoot.exponent < 971 := by
  obtain ⟨bounded, least, greatest⟩ := fits
  have digits := (Nat.log2_lt (Nat.ne_of_gt pos)).mpr bounded
  have leading := Nat.log2_self_le (Nat.ne_of_gt pos)
  have below := Nat.lt_log2_self (n := m.significand)
  simp only [minExponent] at least ⊢
  let scale := 156 - m.significand.log2
  let exponent := m.exponent - scale
  let k := (exponent % 3).toNat
  have few : k < 3 := by omega
  have split : exponent = 3 * (exponent / 3) + k := by omega
  refine ⟨m.significand * 2 ^ (scale + k), ?_, ?_, rfl, ?_, ?_, ?_⟩
  · calc 2 ^ 156 ≤ 2 ^ (m.significand.log2 + (scale + k)) :=
          Nat.pow_le_pow_right (by decide) (by omega)
      _ = 2 ^ m.significand.log2 * 2 ^ (scale + k) := Nat.pow_add ..
      _ ≤ m.significand * 2 ^ (scale + k) := Nat.mul_le_mul_right _ leading
  · calc m.significand * 2 ^ (scale + k) < 2 ^ (m.significand.log2 + 1) * 2 ^ (scale + k) :=
          Nat.mul_lt_mul_of_pos_right below (Nat.two_pow_pos _)
      _ = 2 ^ (m.significand.log2 + 1 + (scale + k)) := (Nat.pow_add ..).symm
      _ ≤ 2 ^ 159 := Nat.pow_le_pow_right (by decide) (by omega)
  · show _ = _ * (2 ^ (exponent / 3)) ^ 3
    rw [value, Nat.cast_mul, natCast_two_pow, mul_assoc, ← zpow_natCast, ← zpow_mul, ← two_zpow_add]
    congr 2
    omega
  · show -1074 ≤ exponent / 3
    omega
  · show exponent / 3 < 971
    omega

theorem odd_three : Odd 3 := by decide

theorem exists_cubeRoot (a : ℝ) : ∃ r : ℝ, r ^ 3 = a := by
  rcases le_total 0 a with nonneg | nonpos
  · exact ⟨_, Real.rpow_inv_natCast_pow nonneg three_ne_zero⟩
  · have opposite := Real.rpow_inv_natCast_pow (neg_nonneg.mpr nonpos) three_ne_zero
    refine ⟨-(-a) ^ (((3 : ℕ) : ℝ)⁻¹), ?_⟩
    rw [odd_three.neg_pow, opposite, neg_neg]

/-- The root is near to the computed one, in units of its last place, and fills these digits. -/
theorem Magnitude.exists_root (fits : m.Fits) (pos : 0 < m.significand) :
    ∃ t : ℝ, (t * 2 ^ m.cubeRoot.exponent) ^ 3 = m.value ∧ |m.cubeRoot.significand - t| < 1 / 2 ∧
      (2 ^ 52 : Nat) ≤ t ∧ m.cubeRoot.significand ≤ 2 ^ 53 := by
  obtain ⟨n, large, small, significand, value, _⟩ := exists_scaled fits pos
  obtain ⟨t, cube⟩ := exists_cubeRoot n
  obtain ⟨k, same, lower, upper⟩ := exists_nearestCubeRoot ((Nat.two_pow_pos 156).trans_le large)
  have eight : (2 * t) ^ 3 = (8 * n : Nat) := by
    rw [mul_pow, cube]
    norm_num
  have below : 2 * k + 1 < 2 * t := by
    rw [← odd_three.pow_lt_pow, eight]
    exact_mod_cast lower
  have above : 2 * t < 2 * k + 3 := by
    rw [← odd_three.pow_lt_pow, eight]
    exact_mod_cast upper
  have digits : 2 * k + 1 < 2 ^ 54 := by
    rw [← Nat.pow_lt_pow_iff_left three_ne_zero]
    omega
  refine ⟨t, ?_, ?_, ?_, ?_⟩
  · rw [mul_pow, cube, value]
    push_cast
    rfl
  · rw [significand, same, abs_lt]
    push_cast
    exact ⟨by linarith, by linarith⟩
  · rw [← odd_three.pow_le_pow, cube]
    exact_mod_cast large
  · rw [significand, same]
    omega

/-- One digit too many is carried into the exponent. -/
theorem Magnitude.toFloat_carried {e : Int} (least : minExponent ≤ e) :
    toFloat ⟨2 ^ 53, e⟩ = toFloat ⟨2 ^ 52, e + 1⟩ := by
  have digits : (2 ^ 53).log2 = 53 ∧ (2 ^ 52).log2 = 52 := by decide
  have field : ((e - (0 : Nat) - minExponent).toNat + 1) * 2 ^ 52 + (2 ^ 53 * 2 ^ 0 - 2 ^ 52) =
      ((e + 1 - (0 : Nat) - minExponent).toNat + 1) * 2 ^ 52 + (2 ^ 52 * 2 ^ 0 - 2 ^ 52) := by
    omega
  simp only [toFloat, fractionBits, digits, Nat.reduceSub, Nat.zero_min]
  rw [if_neg (by decide), if_neg (by decide), field]

/-- Doubles are whole numbers of a unit, or less than what has all digits in this unit. -/
theorem multiple_or_less {z : Float} (finite : z.isFinite = true) (e : Int) :
    (∃ n : Int, value z = n * 2 ^ e) ∨ |value z| < (2 ^ 52 : Nat) * 2 ^ e := by
  obtain ⟨bounded, _, _⟩ := fits_magnitude finite
  rcases le_or_gt e (magnitude z).exponent with coarse | fine
  · left
    obtain ⟨k, exponent⟩ : ∃ k : Nat, (magnitude z).exponent = k + e :=
      ⟨((magnitude z).exponent - e).toNat, by omega⟩
    have size : (magnitude z).value = ((magnitude z).significand * 2 ^ k : Nat) * 2 ^ e := by
      rw [Magnitude.value, exponent, two_zpow_add, Nat.cast_mul, natCast_two_pow, mul_assoc]
    rw [value, size]
    split
    · exact ⟨-((magnitude z).significand * 2 ^ k : Nat), by push_cast; ring⟩
    · exact ⟨((magnitude z).significand * 2 ^ k : Nat), by push_cast; ring⟩
  · right
    calc |value z| = (magnitude z).significand * 2 ^ (magnitude z).exponent := abs_value z
      _ < (2 ^ 53 : Nat) * 2 ^ (magnitude z).exponent :=
          mul_lt_mul_of_pos_right (Nat.cast_lt.mpr bounded) (two_zpow_pos _)
      _ = (2 ^ 52 : Nat) * 2 ^ ((magnitude z).exponent + 1) := by
          rw [natCast_two_pow, natCast_two_pow, ← two_zpow_add, ← two_zpow_add]
          congr 1
          omega
      _ ≤ (2 ^ 52 : Nat) * 2 ^ e :=
          mul_le_mul_of_nonneg_left (zpow_le_zpow_right₀ one_le_two fine) (Nat.cast_nonneg _)

/-- A whole number of units that is less than half a unit away from a number is nearer to it than
any other, and nearer than what lies below some number of units that is not greater. -/
theorem nearest_of_near {q d : Nat} {t : ℝ} {e : Int} {v : ℚ} (near : |q - t| < 1 / 2)
    (low : d ≤ t) (grid : (∃ n : Int, v = n * 2 ^ e) ∨ |v| < d * 2 ^ e)
    (different : v ≠ q * 2 ^ e) : |(q * 2 ^ e : ℝ) - t * 2 ^ e| < |v - t * 2 ^ e| := by
  have unit : (0 : ℝ) < 2 ^ e := by positivity
  have whole (n : Int) (other : n ≠ q) : |q - t| < |n - t| := by
    have apart : 1 ≤ |(n : ℝ) - q| := by exact_mod_cast Int.one_le_abs (sub_ne_zero.mpr other)
    have := abs_sub_le (n : ℝ) t q
    rw [abs_sub_comm t] at this
    linarith
  rw [← sub_mul, abs_mul, abs_of_pos unit]
  rcases grid with ⟨n, rfl⟩ | small
  · have other : n ≠ q := by
      rintro rfl
      exact different rfl
    push_cast
    rw [← sub_mul, abs_mul, abs_of_pos unit]
    exact mul_lt_mul_of_pos_right (whole n other) unit
  · have nearer : |q - t| ≤ t - d := by
      have last : |d - t| = t - d := by rw [abs_sub_comm, abs_of_nonneg (sub_nonneg.mpr low)]
      rw [← last]
      by_cases same : q = d
      · rw [same]
      · exact (whole d (by exact_mod_cast Ne.symm same)).le
    have below : (v : ℝ) < d * 2 ^ e := by
      have := (Rat.cast_lt (K := ℝ)).mpr (abs_lt.mp small).2
      push_cast at this
      exact this
    calc |q - t| * 2 ^ e ≤ (t - d) * 2 ^ e := mul_le_mul_of_nonneg_right nearer unit.le
      _ < t * 2 ^ e - v := by linarith
      _ ≤ |v - t * 2 ^ e| := by
          rw [abs_sub_comm]
          exact le_abs_self _
/-- The computed root of a magnitude is written into bits as it is. -/
theorem Magnitude.hasValue_cubeRoot (fits : m.Fits) (pos : 0 < m.significand) :
    HasValue m.cubeRoot.toFloat.toModel.unpack m.cubeRoot.value ∧
      sign? m.cubeRoot.toFloat.toModel.unpack = some .positive := by
  obtain ⟨_, _, _, _, _, least, greatest⟩ := exists_scaled fits pos
  obtain ⟨_, _, _, _, bounded⟩ := exists_root fits pos
  obtain less | full := bounded.lt_or_eq
  · exact Fits.hasValue_toFloat ⟨less, least, greatest.le⟩
  · have carried : Fits ⟨2 ^ 52, m.cubeRoot.exponent + 1⟩ :=
      ⟨Nat.pow_lt_pow_right (by decide) (by decide), least.trans (Int.le_add_one le_rfl), greatest⟩
    have number : m.cubeRoot.value = value ⟨2 ^ 52, m.cubeRoot.exponent + 1⟩ := by
      show _ = ((2 ^ 52 : Nat) : ℚ) * 2 ^ (m.cubeRoot.exponent + 1)
      rw [value, full, natCast_two_pow, natCast_two_pow, ← two_zpow_add, ← two_zpow_add]
      congr 1
      omega
    have written : m.cubeRoot.toFloat = toFloat ⟨2 ^ 52, m.cubeRoot.exponent + 1⟩ := by
      rw [← toFloat_carried least, ← full]
    rw [written, number]
    exact carried.hasValue_toFloat

theorem Magnitude.cubeRoot_nearest (fits : m.Fits) (pos : 0 < m.significand) :
    ∃ r : ℝ, r ^ 3 = m.value ∧ ∀ z : Float, z.isFinite = true →
      Binary64.value z ≠ m.cubeRoot.value → |m.cubeRoot.value - r| < |Binary64.value z - r| := by
  obtain ⟨t, root, near, low, _⟩ := exists_root fits pos
  refine ⟨t * 2 ^ m.cubeRoot.exponent, root, fun z finite different => ?_⟩
  have nearer := nearest_of_near near low (multiple_or_less finite _) different
  rw [value]
  push_cast
  exact nearer

section CubeRoot

variable {x y y' : Float}

/-- No other number that a double stands for is as near to the cube root of `x`. -/
structure IsCubeRoot (x y : Float) : Prop where
  finite : y.isFinite = true
  sign : isNegative y = isNegative x
  nearest : ∃ r : ℝ, r ^ 3 = value x ∧ ∀ z : Float, z.isFinite = true → value z ≠ value y →
    |value y - r| < |value z - r|

theorem IsCubeRoot.unique (h : IsCubeRoot x y) (h' : IsCubeRoot x y') : y = y' := by
  obtain ⟨finite, sign, r, root, nearest⟩ := h
  obtain ⟨finite', sign', r', root', nearest'⟩ := h'
  obtain rfl : r = r' := odd_three.pow_inj.mp (root.trans root'.symm)
  apply eq_of_value_eq finite finite' (sign.trans sign'.symm)
  by_contra different
  exact (nearest y' finite' (Ne.symm different)).asymm (nearest' y finite different)

theorem cubeRoot_of_zero (finite : x.isFinite = true) (nothing : value x = 0) :
    cubeRoot x = x := by
  have zero := (beq_zero_iff finite).mpr nothing
  simp [cubeRoot, zero]

theorem cubeRoot_of_ne_zero (finite : x.isFinite = true) (nonzero : value x ≠ 0) :
    cubeRoot x =
      let root := (magnitude x).cubeRoot.toFloat
      if isNegative x then -root else root := by
  have kinds := isFinite_eq x
  have argument := (beq_zero_iff finite).not.mpr nonzero
  simp_all [cubeRoot]

theorem isCubeRoot_cubeRoot (finite : x.isFinite = true) : IsCubeRoot x (cubeRoot x) := by
  by_cases nothing : value x = 0
  · rw [cubeRoot_of_zero finite nothing]
    refine ⟨finite, rfl, 0, by simp [nothing], fun z _ different => ?_⟩
    rw [nothing] at different
    simpa [nothing] using different
  · have fits := fits_magnitude finite
    have pos := significand_pos nothing
    obtain ⟨has, positive⟩ := Magnitude.hasValue_cubeRoot fits pos
    obtain ⟨own, sign, number⟩ := signed_double has positive (isNegative x)
    rw [← cubeRoot_of_ne_zero finite nothing] at own sign number
    obtain ⟨r, root, nearest⟩ := Magnitude.cubeRoot_nearest fits pos
    -- Both sides of the comparison change their signs with `x`.
    cases negative : isNegative x with
    | false =>
        simp only [negative, Bool.false_eq_true, if_false] at number
        refine ⟨own, sign, r, by simp [root, value, negative], fun z hz different => ?_⟩
        rw [number] at different ⊢
        exact nearest z hz different
    | true =>
        simp only [negative, if_true] at number
        refine ⟨own, sign, -r, ?_, fun z hz different => ?_⟩
        · rw [odd_three.neg_pow, root, value, if_pos negative, Rat.cast_neg]
        · have opposite := hasValue_neg hz
          rw [number] at different ⊢
          have nearer := nearest (-z) opposite.isFinite
          rw [value_eq opposite] at nearer
          replace nearer := nearer fun same => different (by rw [← same, neg_neg])
          push_cast at nearer ⊢
          rw [neg_sub_left, abs_neg, add_comm] at nearer
          rwa [neg_sub_neg, abs_sub_comm, sub_neg_eq_add]

/-- The cube root is the nearest double to the root, and there is one such double. -/
theorem cubeRoot_eq_iff (finite : x.isFinite = true) : cubeRoot x = y ↔ IsCubeRoot x y :=
  ⟨fun same => same ▸ isCubeRoot_cubeRoot finite, (isCubeRoot_cubeRoot finite).unique⟩

/-- The root of a cube is exact. -/
theorem cubeRoot_of_cube (finite : x.isFinite = true) (hy : y.isFinite = true)
    (sign : isNegative y = isNegative x) (cube : value x = value y ^ 3) : cubeRoot x = y := by
  refine (cubeRoot_eq_iff finite).mpr ⟨hy, sign, value y, by simp [cube], fun z _ different => ?_⟩
  rw [sub_self, abs_zero, abs_pos, sub_ne_zero]
  exact_mod_cast different

/-- Infinities and NaN are their own roots. -/
theorem cubeRoot_of_not_isFinite (infinite : x.isFinite = false) : cubeRoot x = x := by
  rw [isFinite_eq, Bool.not_eq_false'] at infinite
  rw [cubeRoot, infinite]
  rfl

end CubeRoot

end Reckoner.Binary64
