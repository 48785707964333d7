import Reckoner.Binary64.CubeRoot
import Reckoner.Function.Basic
import Reckoner.Numeric.Gamma
import Reckoner.Numeric.Hyperbolic

/-!
# Builtin functions

The functions that every calculator starts with: elementary functions of one argument, and a few
that aggregate or count. `Builtin.apply` checks the number of its arguments itself, so it may also
be used without a library; `Library.standard` registers each builtin under its name.
-/

namespace Reckoner

/-- The elementary functions of one real argument. -/
inductive Elementary where
  | sin | cos | tan | csc | sec | cot
  | asin | acos | atan | acsc | asec | acot
  | sinh | cosh | tanh | csch | sech | coth
  | asinh | acosh | atanh | acsch | asech | acoth
  | degrees | radians
  | sqrt | cbrt | abs | round
  | ln | log10 | log2
  deriving DecidableEq, Repr

inductive Builtin where
  | elementary (f : Elementary)
  | sum
  | average
  | factorial
  | permutation
  | combination
  deriving DecidableEq, Repr

namespace Elementary

def all : List Elementary :=
  [sin, cos, tan, csc, sec, cot, asin, acos, atan, acsc, asec, acot,
    sinh, cosh, tanh, csch, sech, coth, asinh, acosh, atanh, acsch, asech, acoth,
    degrees, radians, sqrt, cbrt, abs, round, ln, log10, log2]

def name : Elementary → String
  | sin => "sin" | cos => "cos" | tan => "tan"
  | csc => "csc" | sec => "sec" | cot => "cot"
  | asin => "asin" | acos => "acos" | atan => "atan"
  | acsc => "acsc" | asec => "asec" | acot => "acot"
  | sinh => "sinh" | cosh => "cosh" | tanh => "tanh"
  | csch => "csch" | sech => "sech" | coth => "coth"
  | asinh => "asinh" | acosh => "acosh" | atanh => "atanh"
  | acsch => "acsch" | asech => "asech" | acoth => "acoth"
  | degrees => "d" | radians => "r"
  | sqrt => "sqrt" | cbrt => "cbrt" | abs => "abs" | round => "round"
  | ln => "ln" | log10 => "log" | log2 => "logb"

/-- The value of a function. A reciprocal function is the reciprocal of the value, and the inverse
of one is the inverse function at the reciprocal of the argument. -/
def eval : Elementary → Float → Float
  | sin, x => x.sin
  | cos, x => x.cos
  | tan, x => x.tan
  | csc, x => 1 / x.sin
  | sec, x => 1 / x.cos
  | cot, x => 1 / x.tan
  | asin, x => x.asin
  | acos, x => x.acos
  | atan, x => x.atan
  | acsc, x => (1 / x).asin
  | asec, x => (1 / x).acos
  | acot, x => (1 / x).atan
  | sinh, x => x.sinh
  | cosh, x => x.cosh
  | tanh, x => x.tanh
  | csch, x => 1 / x.sinh
  | sech, x => 1 / x.cosh
  | coth, x => 1 / x.tanh
  | asinh, x => x.asinh
  | acosh, x => x.acosh
  | atanh, x => Numeric.artanh x
  | acsch, x => (1 / x).asinh
  | asech, x => (1 / x).acosh
  | acoth, x => Numeric.artanh (1 / x)
  | degrees, x => x * (180 / Numeric.pi)
  | radians, x => x * (Numeric.pi / 180)
  | sqrt, x => x.sqrt
  | cbrt, x => Binary64.cubeRoot x
  | abs, x => x.abs
  | round, x => x.round
  | ln, x => x.log
  | log10, x => x.log10
  | log2, x => x.log2

end Elementary

namespace Builtin

def all : List Builtin :=
  Elementary.all.map elementary ++ [sum, average, factorial, permutation, combination]

def name : Builtin → String
  | elementary f => f.name
  | sum => "sum"
  | average => "average"
  | factorial => "factorial"
  | permutation => "permutation"
  | combination => "combination"

def arity : Builtin → Arity
  | elementary _ => .exactly 1
  | sum => .any
  | average => .atLeast 1
  | factorial => .exactly 1
  | permutation => .exactly 2
  | combination => .exactly 2

/-- The sum from left to right. It starts from `-0`, which adds nothing to any number. -/
def total (args : List Float) : Float :=
  args.foldl (· + ·) (-0)

/-- The number of ordered selections of `k` out of `n`, as a quotient of factorials. -/
def selections (n k : Float) : Except Failure Float := do
  let all ← Numeric.factorial n
  let rest ← Numeric.factorial (n - k)
  return all / rest

/-- The number of unordered selections of `k` out of `n`. -/
def choices (n k : Float) : Except Failure Float := do
  let ordered ← selections n k
  let orders ← Numeric.factorial k
  return ordered / orders

def apply : Builtin → List Float → Except Failure Float
  | elementary f, [x] => .ok (f.eval x)
  | elementary _, args => .error (wrongCount 1 args.length)
  | sum, args => .ok (total args)
  | average, [] => .error (.unsupportedOperand .averageOfNothing)
  | average, args => .ok (total args / Float.ofNat args.length)
  | factorial, [x] => Numeric.factorial x
  | factorial, args => .error (wrongCount 1 args.length)
  | permutation, [n, k] => selections n k
  | permutation, args => .error (wrongCount 2 args.length)
  | combination, [n, k] => choices n k
  | combination, args => .error (wrongCount 2 args.length)

/-- A builtin as a function of a library. -/
def callable (b : Builtin) : Callable := ⟨b.arity, b.apply⟩

end Builtin

/-- The library of all builtins. -/
def Library.standard : Library :=
  Table.ofList (Builtin.all.map fun b => (b.name, b.callable))

end Reckoner
