import Reckoner.Binary64.Magnitude

/-!
# The remainder of a division

`remainder x y` is `x - n * y` for the integer `n` nearest to `x / y` towards zero, computed
without rounding: both magnitudes are written over the smaller of the two exponents and divided
as natural numbers. The result takes the sign of the dividend, so it may be `-0`.
-/

namespace Reckoner.Binary64

-- Powers of natural numbers are the ones of the core library here, whatever else is imported.
attribute [local instance (high)] instPowNat

namespace Magnitude

/-- The remainder of two magnitudes, over the smaller exponent. -/
def remainder (a b : Magnitude) : Magnitude :=
  let exponent := min a.exponent b.exponent
  ⟨a.significand * 2 ^ (a.exponent - exponent).toNat %
      (b.significand * 2 ^ (b.exponent - exponent).toNat), exponent⟩

end Magnitude

/-- What is left of the dividend `x` after taking out whole multiples of `y`. There is none for
an infinite dividend or a zero divisor; an infinite divisor leaves the dividend as it is. -/
def remainder (x y : Float) : Float :=
  if x.isNaN || x.isInf || y.isNaN || y == 0 then 0 / 0
  else if y.isInf then x
  else
    let rest := ((magnitude x).remainder (magnitude y)).toFloat
    if isNegative x then -rest else rest

end Reckoner.Binary64
