import Reckoner.Binary64.Magnitude

/-!
# Cube roots

`cubeRoot x` is the double nearest to the real cube root of `x`, so the root of a cube is exact.
The magnitude is scaled by a power of eight until its root has `53` bits before the point, and the
root of the scaled number is rounded as a natural number. No half arises, as the cube of a number
with a half is no natural number.
-/

namespace Reckoner.Binary64

-- Powers of natural numbers are the ones of the core library here, whatever else is imported.
attribute [local instance (high)] instPowNat

/-- The greatest `r` with `r ^ 3 ≤ n`. Its last bit is the one that dividing `n` by eight drops. -/
def wholeCubeRoot (n : Nat) : Nat :=
  if n = 0 then 0
  else
    let r := 2 * wholeCubeRoot (n / 8)
    if (r + 1) ^ (3 : Nat) ≤ n then r + 1 else r
termination_by n

theorem wholeCubeRoot_bounds (n : Nat) :
    wholeCubeRoot n ^ (3 : Nat) ≤ n ∧ n < (wholeCubeRoot n + 1) ^ (3 : Nat) := by
  induction n using Nat.strongRecOn with
  | ind n ih =>
      rw [wholeCubeRoot]
      split
      · subst n
        decide
      · obtain ⟨below, above⟩ := ih (n / 8) (by omega)
        have low : (2 * wholeCubeRoot (n / 8)) ^ (3 : Nat) ≤ n := by
          rw [Nat.mul_pow]
          omega
        have high : n < (2 * wholeCubeRoot (n / 8) + 1 + 1) ^ (3 : Nat) := by
          rw [show 2 * wholeCubeRoot (n / 8) + 1 + 1 = 2 * (wholeCubeRoot (n / 8) + 1) by omega,
            Nat.mul_pow]
          omega
        dsimp only
        split
        · exact ⟨by assumption, high⟩
        · exact ⟨low, by omega⟩

/-- The natural number nearest to the cube root of `n`, for one that is not half-way between two. -/
def nearestCubeRoot (n : Nat) : Nat :=
  (wholeCubeRoot (8 * n) + 1) / 2

namespace Magnitude

/-- The cube root of a magnitude that is not zero, rounded to `53` bits. Scaling makes the exponent
a multiple of three and the significand a number of `157` to `159` bits. -/
def cubeRoot (m : Magnitude) : Magnitude :=
  let scale := 3 * fractionBits - m.significand.log2
  let exponent := m.exponent - scale
  let scaled := m.significand * 2 ^ (scale + (exponent % 3).toNat)
  ⟨nearestCubeRoot scaled, exponent / 3⟩

end Magnitude

/-- The double nearest to the cube root of `x`. Zeros, infinities and NaN are their own roots. -/
def cubeRoot (x : Float) : Float :=
  if x.isNaN || x.isInf || x == 0 then x
  else
    let root := (magnitude x).cubeRoot.toFloat
    if isNegative x then -root else root

end Reckoner.Binary64
