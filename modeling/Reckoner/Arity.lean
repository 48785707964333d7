/-!
# Arities

An arity is the number of arguments that a function takes.
-/

namespace Reckoner

inductive Arity where
  | any
  | exactly (count : Nat)
  | atLeast (count : Nat)
  deriving DecidableEq, Repr

namespace Arity

/-- Whether a call with this many arguments is allowed. -/
def admits : Arity → Nat → Bool
  | any, _ => true
  | exactly count, n => n == count
  | atLeast count, n => count ≤ n

/-- An arity in words, as in `exactly 2 arguments`. -/
def text : Arity → String
  | any => "any number of arguments"
  | exactly count => "exactly " ++ arguments count
  | atLeast count => "at least " ++ arguments count
where
  /-- A count with its noun. -/
  arguments (count : Nat) : String :=
    toString count ++ (if count = 1 then " argument" else " arguments")

end Arity

end Reckoner
