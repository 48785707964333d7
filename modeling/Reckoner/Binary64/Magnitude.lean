/-!
# The magnitude of a finite double

A finite double is a sign and a magnitude `significand * 2 ^ exponent`, with a natural
significand below `2 ^ 53` and an exponent from `-1074` up. `magnitude` takes the two numbers
out of the bits and `Magnitude.toFloat` puts them back, so exact questions about a double
(is it an integer, what remains after division, which decimal is nearest) become questions
about natural numbers.
-/

namespace Reckoner.Binary64

-- Powers of natural numbers are the ones of the core library here, whatever else is imported.
attribute [local instance (high)] instPowNat

/-- The number `significand * 2 ^ exponent`. -/
structure Magnitude where
  significand : Nat
  exponent : Int
  deriving DecidableEq, Repr

/-- The least exponent of a finite double, that of the subnormals. -/
def minExponent : Int := -1074

/-- The bits below the exponent field. -/
def fractionBits : Nat := 52

/-- The bits of the exponent field, which ends below the sign. -/
def exponentBits : Nat := 11

/-- Sign bit of a double, which tells `-0` from `0`. -/
def isNegative (x : Float) : Bool :=
  x.toBits.toNat / 2 ^ (fractionBits + exponentBits) == 1

/-- Magnitude of a finite double. A zero exponent field marks a subnormal, whose significand
has no leading one. -/
def magnitude (x : Float) : Magnitude :=
  let bits := x.toBits.toNat
  let fraction := bits % 2 ^ fractionBits
  let field := bits / 2 ^ fractionBits % 2 ^ exponentBits
  if field = 0 then
    ⟨fraction, minExponent⟩
  else
    ⟨2 ^ fractionBits + fraction, minExponent + (field - 1 : Nat)⟩

namespace Magnitude

/-- The double of a magnitude whose significand is at most `2 ^ 53` and whose exponent is not
below `minExponent`. The significand moves up until it fills its bits or the exponent is the
least one. -/
def toFloat (m : Magnitude) : Float :=
  let shift := min (fractionBits - m.significand.log2) (m.exponent - minExponent).toNat
  let significand := m.significand * 2 ^ shift
  let field := (m.exponent - shift - minExponent).toNat + 1
  let bits :=
    if significand < 2 ^ fractionBits then significand
    else field * 2 ^ fractionBits + (significand - 2 ^ fractionBits)
  Float.ofBits bits.toUInt64

/-- Numerator and denominator of a magnitude; the denominator is a power of two. -/
def ratio (m : Magnitude) : Nat × Nat :=
  (m.significand * 2 ^ m.exponent.toNat, 2 ^ (-m.exponent).toNat)

/-- The whole part of a magnitude. -/
def floor (m : Magnitude) : Nat :=
  m.ratio.1 / m.ratio.2

/-- Whether a magnitude is a natural number. -/
def isInteger (m : Magnitude) : Bool :=
  m.ratio.1 % m.ratio.2 == 0

end Magnitude

/-- Whether a double is finite and has no fractional part. -/
def isInteger (x : Float) : Bool :=
  x.isFinite && (magnitude x).isInteger

end Reckoner.Binary64
