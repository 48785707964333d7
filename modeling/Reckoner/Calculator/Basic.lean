import Reckoner.Environment
import Reckoner.Function.Builtin

/-!
# Calculators

A calculator holds what no statement changes: the constants and the functions.
-/

namespace Reckoner

/-- The constants that a calculator starts with. -/
def standardConstants : List (String × Float) :=
  [("pi", Numeric.pi), ("e", 2.718281828459045), ("phi", 1.618033988749895)]

structure Calculator where
  constants : Table Float := .ofList standardConstants
  functions : Library := .standard

namespace Calculator

/-- What a bare name stands for: a constant, or else a variable. -/
def lookup (c : Calculator) (env : Environment) (name : String) : Except Failure Float :=
  match c.constants.get? name with
  | some value => .ok value
  | none =>
    match env.bindings.get? name with
    | some value => .ok value
    | none => .error (.undefined name)

end Calculator

end Reckoner
