import Reckoner.Arity
import Reckoner.Failure
import Reckoner.Table

/-!
# Functions

A function has an arity and a body, and a library binds names to functions. A call by name looks
the function up and checks the number of arguments before the body runs, so a body may rely on the
arity it was registered with.
-/

namespace Reckoner

/-- What a name in front of `[ … ]` stands for. -/
structure Callable where
  arity : Arity
  body : List Float → Except Failure Float

/-- The complaint that a function was not given exactly `count` arguments. -/
def wrongCount (count given : Nat) : Failure :=
  .unsupportedOperand (.argumentCount none (.exactly count) given)

/-- Refuses any number of arguments but `count`, for a body that is used without a library. -/
def checkCount (count : Nat) (args : List Float) : Except Failure Unit :=
  if args.length = count then .ok () else .error (wrongCount count args.length)

/-- The functions that a statement can call. -/
abbrev Library := Table Callable

/-- Applies the function of a name to arguments. -/
def Library.call (functions : Library) (name : String) (args : List Float) :
    Except Failure Float :=
  match functions.get? name with
  | none => .error (.undefined name)
  | some f =>
    if f.arity.admits args.length then f.body args
    else .error (.unsupportedOperand (.argumentCount (some name) f.arity args.length))

end Reckoner
