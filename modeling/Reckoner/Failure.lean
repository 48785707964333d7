import Reckoner.Arity
import Reckoner.Numeral

/-!
# Failures

A failure says why a statement has no value. `message` words it for the user and `kind` names its
group for programs that read the answers.
-/

namespace Reckoner

/-- Why the tokens of a statement do not form a sentence. -/
inductive SyntaxFault where
  | emptyStatement
  /-- The statement starts with `let` but is no declaration. -/
  | malformedDeclaration
  /-- Nothing follows `let name =`. -/
  | missingValue (name : String)
  | missingOperand
  /-- A complete operand is followed by the token with this text. -/
  | trailing (text : String)
  /-- A reason given by a function from outside. -/
  | custom (details : String)
  deriving DecidableEq

/-- Why an operation is not defined on its operands. -/
inductive OperandFault where
  | divisionByZero
  | modulusByZero
  /-- A wrong number of arguments; the function's name is given where the call is known by it. -/
  | argumentCount (callee : Option String) (arity : Arity) (given : Nat)
  | averageOfNothing
  | factorialOfNaN
  | factorialOfNegative (x : Float)
  /-- A reason given by a function from outside. -/
  | custom (details : String)
  deriving DecidableEq

inductive Failure where
  /-- More parentheses or brackets of a kind are opened than closed, or the other way round. -/
  | unbalanced
  /-- A character that starts no token, or a token that cannot start an operand. -/
  | unknownToken (text : String)
  /-- A numeric literal without a digit or with two points. -/
  | badLiteral (text : String)
  | unsupportedOperand (fault : OperandFault)
  | syntaxError (fault : SyntaxFault)
  /-- A declaration of a name that is bound already. -/
  | redeclared (name : String)
  /-- A name that is not bound. -/
  | undefined (name : String)
  deriving DecidableEq

namespace SyntaxFault

def details : SyntaxFault → String
  | emptyStatement => "empty statement"
  | malformedDeclaration => "expected `let <name> = <expression>`"
  | missingValue name => "missing value for `" ++ name ++ "`"
  | missingOperand => "expected an operand"
  | trailing text => "unexpected `" ++ text ++ "` after operand"
  | custom details => details

end SyntaxFault

namespace OperandFault

def details : OperandFault → String
  | divisionByZero => "division by zero"
  | modulusByZero => "modulus by zero"
  | argumentCount (some callee) arity given =>
    callee ++ " expects " ++ arity.text ++ ", but got " ++ toString given
  | argumentCount none arity given =>
    "expected " ++ arity.text ++ ", but got " ++ toString given
  | averageOfNothing => "can't take average of zero numbers"
  | factorialOfNaN => "factorial of NaN"
  | factorialOfNegative x =>
    "factorial is not defined for negative integer " ++ Numeral.plain x
  | custom details => details

end OperandFault

namespace Failure

/-- The sentence shown to the user. -/
def message : Failure → String
  | unbalanced => "unbalanced parentheses."
  | unknownToken text => "unknown token: " ++ text ++ "."
  | badLiteral text => "not a valid number: " ++ text ++ "."
  | unsupportedOperand fault => "operation not supported by operand: " ++ fault.details ++ "."
  | syntaxError fault => "syntax error: " ++ fault.details ++ "."
  | redeclared name => "variable already exists: " ++ name ++ "."
  | undefined name => "no such variable: " ++ name ++ "."

/-- The group of a failure. -/
def kind : Failure → String
  | unbalanced => "unbalanced-parentheses"
  | unknownToken _ => "unknown-token"
  | badLiteral _ => "bad-literal"
  | unsupportedOperand _ => "unsupported-operand"
  | syntaxError _ => "syntax-error"
  | redeclared _ => "redeclaration-of-variable"
  | undefined _ => "variable-not-defined"

/-- Of two computations in a row each succeeds if both do. -/
theorem bind_eq_ok {α β : Type} {x : Except Failure α} {f : α → Except Failure β} {b : β} :
    x >>= f = .ok b ↔ ∃ a, x = .ok a ∧ f a = .ok b := by
  cases x with
  | error failure => exact ⟨nofun, nofun⟩
  | ok a => exact ⟨fun h => ⟨a, rfl, h⟩, by rintro ⟨_, ⟨⟩, h⟩; exact h⟩

theorem eq_ok_of_toOption {α : Type} {x : Except Failure α} {a : α} (h : x.toOption = some a) :
    x = .ok a := by
  cases x with
  | error failure => cases h
  | ok b => rw [Option.some.inj h]

end Failure

end Reckoner
