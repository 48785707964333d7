/-!
# Inverse hyperbolic tangent

`artanh x` is half the logarithm of `(1 + x) / (1 - x)`, taken as `log1p` of `2x / (1 - x)` so that
a small argument keeps its digits.
-/

namespace Reckoner.Numeric

/-- The logarithm of `1 + y` without the loss of a small `y` in the sum: the rounding of
`u = 1 + y` is made good by the factor `y / (u - 1)`. -/
def log1p (y : Float) : Float :=
  let u := 1 + y
  if u == 1 then y
  else if y == 1 / 0 then y
  else Float.log u * (y / (u - 1))

def artanh (x : Float) : Float :=
  0.5 * log1p (2 * x / (1 - x))

end Reckoner.Numeric
