import Reckoner.Binary64.Magnitude
import Reckoner.Decimal.Positional
import Reckoner.Decimal.Shortest

/-!
# The text of a number

A result is written in positional notation, either with the fewest digits that read back or with
a fixed number of places. Negative numbers, `-0` among them, have a minus sign; the infinities are
`inf` and `-inf`, and NaN has no sign.
-/

namespace Reckoner.Numeral

/-- The greatest number of places that a number can be written with. -/
def maxPlaces : Nat := 65535

/-- Text of a number whose finite magnitude is written by `body`. -/
def written (body : Float → List Char) (x : Float) : List Char :=
  if x.isNaN then ['N', 'a', 'N']
  else
    let magnitude := if x.isInf then ['i', 'n', 'f'] else body x.abs
    if Binary64.isNegative x then '-' :: magnitude else magnitude

/-- The fewest digits that read back. -/
def plain (x : Float) : String :=
  String.ofList (written (fun y => (Decimal.shortest y).positional) x)

/-- Exactly `places` digits after the point, the exact value rounded half to even. More than
`maxPlaces` cannot be asked for, whatever the number is. -/
def fixed? (places : Nat) (x : Float) : Option String :=
  let body y := Decimal.withPlaces (Decimal.roundTo (Binary64.magnitude y) (-places)) places
  if places ≤ maxPlaces then some (String.ofList (written body x)) else none

end Reckoner.Numeral
