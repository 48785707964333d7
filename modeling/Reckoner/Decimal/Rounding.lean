import Reckoner.Binary64.Magnitude

/-!
# Rounding a quotient

`roundDiv a b` is the natural number nearest to `a / b`, and the even one of two that are equally
near. `roundPlaces` rounds a magnitude to a number of places after the point, exactly: it is a
quotient of natural numbers.
-/

namespace Reckoner.Decimal

-- Powers of natural numbers are the ones of the core library here, whatever else is imported.
attribute [local instance (high)] instPowNat

/-- The natural number nearest to `a / b`, a half going to the even neighbour. -/
def roundDiv (a b : Nat) : Nat :=
  let rest := 2 * (a % b)
  if rest < b ∨ rest = b ∧ a / b % 2 = 0 then a / b else a / b + 1

/-- A ratio divided by `10 ^ k`. -/
def scaleRatio (r : Nat × Nat) (k : Int) : Nat × Nat :=
  (r.1 * 10 ^ (-k).toNat, r.2 * 10 ^ k.toNat)

/-- A magnitude in units of `10 ^ k`, rounded to the nearest. -/
def roundTo (m : Binary64.Magnitude) (k : Int) : Nat :=
  let r := scaleRatio m.ratio k
  roundDiv r.1 r.2

end Reckoner.Decimal
