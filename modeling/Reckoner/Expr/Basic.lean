import Reckoner.Binary64.Remainder
import Reckoner.Failure
import Reckoner.Token

/-!
# Expressions

An expression is the tree of a range of tokens. Groups and runs of signs are kept, so the tokens
can be read off the tree again. Where a range is no expression, the tree has a flaw in its place;
the flaw is reported when evaluation comes to it, so a fault of evaluation to its left comes first.
-/

namespace Reckoner

inductive Sign where
  | plus
  | minus
  deriving DecidableEq, Repr

inductive BinaryOp where
  | add
  | sub
  | mul
  | div
  | rem
  | pow
  deriving DecidableEq, Repr

/-- Why a range of tokens is no operand. -/
inductive Flaw where
  | unbalanced
  | missingOperand
  /-- The range starts with a token that starts no operand. -/
  | misplaced (t : Token)
  /-- The operand that the range starts with ends before the range does. -/
  | trailing (t : Token)
  deriving DecidableEq

inductive Expr where
  | number (value : Float)
  | named (name : String)
  | previous
  | group (inner : Expr)
  | call (callee : String) (args : List Expr)
  | factorial (operand : Expr)
  | signed (signs : List Sign) (operand : Expr)
  | binary (op : BinaryOp) (left right : Expr)
  | flaw (why : Flaw)

namespace Sign

def ofToken? : Token → Option Sign
  | .plus => some plus
  | .minus => some minus
  | _ => none

/-- Whether a run of signs turns the operand around: a `-` does each time, a `+` never. -/
def negates (signs : List Sign) : Bool :=
  signs.count minus % 2 == 1

end Sign

namespace BinaryOp

/-- The operation of an operator token. No other token is asked for, so the last case is `^`. -/
def ofToken : Token → BinaryOp
  | .plus => add
  | .minus => sub
  | .star => mul
  | .slash => div
  | .percent => rem
  | _ => pow

def apply : BinaryOp → Float → Float → Float
  | add, x, y => x + y
  | sub, x, y => x - y
  | mul, x, y => x * y
  | div, x, y => x / y
  | rem, x, y => Binary64.remainder x y
  | pow, x, y => Float.pow x y

/-- The fault of a zero on the right, for the operations that refuse one. -/
def zeroFault? : BinaryOp → Option OperandFault
  | div => some .divisionByZero
  | rem => some .modulusByZero
  | _ => none

end BinaryOp

namespace Flaw

def failure : Flaw → Failure
  | unbalanced => .unbalanced
  | missingOperand => .syntaxError .missingOperand
  | misplaced t => .unknownToken t.text
  | trailing t => .syntaxError (.trailing t.text)

end Flaw

end Reckoner
