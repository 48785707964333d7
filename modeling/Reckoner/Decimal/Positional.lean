import Reckoner.Decimal.Basic

/-!
# Positional notation

Decimals are written with all their places and never with an exponent: `1200`, `0.05`, `3.25`.
`withPlaces n k` writes `n` units of `10 ^ -k` with exactly `k` digits after the point, and no
point when `k` is zero.
-/

namespace Reckoner.Decimal

-- Powers of natural numbers are the ones of the core library here, whatever else is imported.
attribute [local instance (high)] instPowNat

/-- The number `n * 10 ^ -places` with exactly `places` digits after the point. -/
def withPlaces (n places : Nat) : List Char :=
  let whole := digits (n / 10 ^ places)
  if places = 0 then whole
  else whole ++ '.' :: (digits (n % 10 ^ places)).leftpad places '0'

/-- A decimal in positional notation, with as many places as its exponent asks for. -/
def positional (d : Decimal) : List Char :=
  if d.exponent < 0 then withPlaces d.significand d.exponent.natAbs
  else withPlaces (d.significand * 10 ^ d.exponent.natAbs) 0

end Reckoner.Decimal
