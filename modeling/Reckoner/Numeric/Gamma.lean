import Reckoner.Binary64.Magnitude
import Reckoner.Failure

/-!
# Gamma and the factorial

`gamma` is Lanczos' approximation from `1/2` up; below it the reflection formula
`Γ(z) = π / (sin(πz) · Γ(1 - z))` leads back there, as `1 - z` is then no longer below `1/2`.
`factorial x` is `Γ(x + 1)`, but a product of integers where `x` is a natural number, so that `5!`
is exactly `120`.
-/

namespace Reckoner.Numeric

/-- The functions of the mathematical library that Gamma is computed with. -/
structure Elementary where
  sine : Float → Float
  power : Float → Float → Float
  exponential : Float → Float

/-- The functions of the platform. -/
def Elementary.platform : Elementary := ⟨Float.sin, Float.pow, Float.exp⟩

def pi : Float := 3.141592653589793

/-- The constant term and the coefficients of Lanczos' series for `g = 7`. -/
def lanczosTerms : Float × List Float :=
  (0.9999999999998099,
    [676.5203681218851, -1259.1392167224028, 771.3234287776531, -176.6150291621406,
      12.507343278686905, -0.13857109526572012, 9.984369578019572e-6, 1.5056327351493116e-7])

/-- Lanczos' series at `w`: the constant term and `c / (w + i)` for the `i`-th coefficient. -/
def lanczosSeries (w : Float) : Float :=
  (lanczosTerms.2.zipIdx 1).foldl (fun sum term => sum + term.1 / (w + Float.ofNat term.2))
    lanczosTerms.1

/-- The greatest integer whose factorial is a finite double. -/
def maxFactorial : Nat := 170

/-- Gamma for an argument that is not below `1/2`. The power is taken in two halves around the
exponential, as it overflows before the product does. -/
def lanczos (lib : Elementary) (z : Float) : Float :=
  if z > Float.ofNat (maxFactorial + 2) then 1 / 0
  else
    let w := z - 1
    let t := w + 7 + 0.5
    let halfPower := lib.power t ((w + 0.5) / 2)
    Float.sqrt (2 * pi) * halfPower * lib.exponential (-t) * halfPower * lanczosSeries w

/-- Gamma over a given library: the reflection formula below `1/2`, the series from there up. -/
def gammaWith (lib : Elementary) (z : Float) : Float :=
  if z < 0.5 then pi / (lib.sine (pi * z) * lanczos lib (1 - z)) else lanczos lib z

def gamma (z : Float) : Float :=
  gammaWith .platform z

/-- The product of the integers from `2` to `n`, rounded after each factor. -/
def product (n : Nat) : Float :=
  (List.range' 2 (n - 1)).foldl (fun p k => p * Float.ofNat k) 1

/-- The factorial of a double. It has poles at the negative integers; above `maxFactorial` it is
infinite. -/
def factorial (x : Float) : Except Failure Float :=
  if x.isNaN then .error (.unsupportedOperand .factorialOfNaN)
  else if Binary64.isInteger x then
    if x < 0 then .error (.unsupportedOperand (.factorialOfNegative x))
    else if x > Float.ofNat maxFactorial then .ok (1 / 0)
    else .ok (product (Binary64.magnitude x).floor)
  else .ok (gamma (x + 1))

end Reckoner.Numeric
