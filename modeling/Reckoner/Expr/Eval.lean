import Reckoner.Calculator.Basic
import Reckoner.Expr.Basic

/-!
# The value of an expression

Operands are evaluated from left to right and the first failure ends the evaluation, with one
exception: `/` and `%` evaluate their right operand first and refuse a zero there before the left
operand is looked at. A call evaluates its arguments before it looks for the function.
-/

namespace Reckoner.Expr

mutual

def eval (c : Calculator) (env : Environment) : Expr → Except Failure Float
  | .number value => .ok value
  | .named name => c.lookup env name
  | .previous => .ok env.previous
  | .group inner => eval c env inner
  | .call callee args => do
    let values ← evalAll c env args
    c.functions.call callee values
  | .factorial operand => do
    let x ← eval c env operand
    Numeric.factorial x
  | .signed signs operand => do
    let x ← eval c env operand
    return if Sign.negates signs then -x else x
  | .binary op left right =>
    match op.zeroFault? with
    | some fault => do
      let divisor ← eval c env right
      if divisor == 0 then .error (.unsupportedOperand fault)
      else do
        let dividend ← eval c env left
        return op.apply dividend divisor
    | none => do
      let x ← eval c env left
      let y ← eval c env right
      return op.apply x y
  | .flaw why => .error why.failure

def evalAll (c : Calculator) (env : Environment) : List Expr → Except Failure (List Float)
  | [] => .ok []
  | e :: es => do
    let x ← eval c env e
    let xs ← evalAll c env es
    return x :: xs

end

end Reckoner.Expr
