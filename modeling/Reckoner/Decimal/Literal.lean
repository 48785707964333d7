import Reckoner.Decimal.Basic

/-!
# Decimal literals

A literal is a body of digits and dots with an optional exponent: `3.25`, `.5`, `2.`, `2.1e-10`.
The body must hold a digit and at most one dot; there is no sign in front. `ofLiteral?` gives the
decimal that a literal writes, in lowest form.
-/

namespace Reckoner.Decimal

/-- The characters of a literal's body. -/
def isBodyChar (c : Char) : Bool :=
  c.isDigit || c == '.'

/-- The decimal written by digits with at most one dot among them. -/
def ofBody? (cs : List Char) : Option Decimal :=
  let whole := cs.takeWhile Char.isDigit
  match cs.dropWhile Char.isDigit with
  | [] => if whole.isEmpty then none else some ⟨ofDigits whole, 0⟩
  | _ :: fraction =>
    if fraction.all Char.isDigit && !(whole ++ fraction).isEmpty then
      some ⟨ofDigits (whole ++ fraction), -fraction.length⟩
    else none

/-- The value of an exponent part: `e` or `E`, a sign or none, and digits. A missing exponent
part counts as zero. -/
def ofExponent? : List Char → Option Int
  | [] => some 0
  | _ :: '-' :: ds => natural? ds |>.map fun n => -(n : Int)
  | _ :: '+' :: ds => natural? ds |>.map Int.ofNat
  | _ :: ds => natural? ds |>.map Int.ofNat
where
  /-- The value of one or more digits. -/
  natural? (ds : List Char) : Option Nat :=
    if !ds.isEmpty && ds.all Char.isDigit then some (ofDigits ds) else none

/-- The decimal that a literal writes. -/
def ofLiteral? (cs : List Char) : Option Decimal := do
  let body ← ofBody? (cs.takeWhile isBodyChar)
  let exponent ← ofExponent? (cs.dropWhile isBodyChar)
  return lowest ⟨body.significand, body.exponent + exponent⟩

end Reckoner.Decimal
