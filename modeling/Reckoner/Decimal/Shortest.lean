import Reckoner.Binary64.Magnitude
import Reckoner.Decimal.Basic
import Reckoner.Decimal.Rounding

/-!
# The shortest decimal that reads back

Among the decimals whose nearest double is `x`, `shortest x` has the fewest digits, and of those
it is the nearest to `x`; of two that are equally near it is the greater. For each number of
digits only two candidates matter, the neighbours of `x` on the grid of that many digits: if any
point of a grid reads back, a neighbour does. Seventeen digits are enough for every double, and
the exact expansion stands behind them.
-/

namespace Reckoner.Decimal

-- Powers of natural numbers are the ones of the core library here, whatever else is imported.
attribute [local instance (high)] instPowNat

open Binary64 (Magnitude magnitude)

/-- The digits that suffice for every double. -/
def maxDigits : Nat := 17

/-- Whether a decimal, in lowest form, has `x` as its nearest double. -/
def readsBack (x : Float) (d : Decimal) : Bool :=
  d.lowest.toFloat = x

/-- The least `p` with `a / b < 10 ^ p`, for a positive ratio. -/
def pointPosition (r : Nat × Nat) : Int :=
  if r.2 ≤ r.1 then (digits (r.1 / r.2)).length
  else 1 - (digits ((r.2 - 1) / r.1)).length

/-- The nearer of the two neighbours of `x` on the grid of multiples of `10 ^ k`, among those
that read back as `x`. -/
def neighbour? (x : Float) (k : Int) : Option Decimal :=
  let r := scaleRatio (magnitude x).ratio k
  let lower : Decimal := ⟨r.1 / r.2, k⟩
  let upper : Decimal := ⟨r.1 / r.2 + 1, k⟩
  let near := if 2 * (r.1 % r.2) < r.2 then [lower, upper] else [upper, lower]
  near.find? (readsBack x)

/-- The decimal expansion of a magnitude, with nothing rounded. -/
def exact (m : Magnitude) : Decimal :=
  if m.exponent < 0 then ⟨m.significand * 5 ^ m.exponent.natAbs, m.exponent⟩
  else ⟨m.significand * 2 ^ m.exponent.natAbs, 0⟩

/-- The shortest decimal that reads back as a finite, non-negative double. -/
def shortest (x : Float) : Decimal :=
  let m := magnitude x
  if m.significand = 0 then ⟨0, 0⟩
  else
    let p := pointPosition m.ratio
    let found := (List.range maxDigits).findSome? fun i => neighbour? x (p - (i + 1 : Nat))
    (found.getD (exact m)).lowest

end Reckoner.Decimal
