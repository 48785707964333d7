/-!
# Decimals

A decimal is the number `significand * 10 ^ exponent`. One number has many such forms;
`lowest` picks the one whose significand does not end in a zero. `toFloat` is the double
nearest to a decimal, with ties to the even one, infinity beyond the range and zero below it.
-/

namespace Reckoner

/-- The number `significand * 10 ^ exponent`. -/
structure Decimal where
  significand : Nat
  exponent : Int
  deriving DecidableEq, Repr

namespace Decimal

/-- The form whose significand does not end in a zero; zero itself has exponent zero. -/
def lowest (d : Decimal) : Decimal :=
  if d.significand = 0 then ⟨0, 0⟩
  else if d.significand % 10 = 0 then lowest ⟨d.significand / 10, d.exponent + 1⟩
  else d
termination_by d.significand

/-- The nearest double. -/
def toFloat (d : Decimal) : Float :=
  Float.ofScientific d.significand (d.exponent < 0) d.exponent.natAbs

/-- Value of a run of decimal digits. -/
def ofDigits (cs : List Char) : Nat :=
  Nat.ofDigitChars 10 cs 0

/-- The decimal digits of a natural number, `0` for zero. -/
def digits (n : Nat) : List Char :=
  Nat.toDigits 10 n

end Decimal

end Reckoner
