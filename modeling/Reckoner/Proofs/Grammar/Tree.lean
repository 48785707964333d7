import Reckoner.Calculator.Evaluate

/-!
# Parse trees

The grammar of statements as types of trees, one constructor for each alternative of a rule:

    statement   := declaration | expression
    declaration := "let" name "=" expression
    expression  := expression ("+" | "-") term | term
    term        := term ("*" | "/" | "%") unary | unary
    unary       := ("+" | "-")* power
    power       := primary "^" power | primary
    primary     := "(" expression ")" | call | name | "_" | number | primary "!"
    call        := name "[" arglist? "]"
    arglist     := expression ("," expression)*

A tree derives a list of tokens and has a value. Both are read off the tree from the root down;
nothing here searches a list of tokens for the place where it splits.
-/

namespace Reckoner

def Sign.token : Sign → Token
  | plus => .plus
  | minus => .minus

namespace Grammar

/-- The rules that an operand can be derived by, the loosest first. -/
inductive Level where
  | expression
  | term
  | unary
  | power
  | primary
  deriving DecidableEq, Repr

inductive Additive where
  | plus
  | minus
  deriving DecidableEq, Repr

inductive Multiplicative where
  | star
  | slash
  | percent
  deriving DecidableEq, Repr

def Additive.token : Additive → Token
  | plus => .plus
  | minus => .minus

def Multiplicative.token : Multiplicative → Token
  | star => .star
  | slash => .slash
  | percent => .percent

/-- A derivation by the rule of a level. The arguments of a call are the expressions of its
argument list, and none if it has no such list. -/
inductive Tree : Level → Type
  | sum (left : Tree .expression) (op : Additive) (right : Tree .term) : Tree .expression
  | ofTerm (t : Tree .term) : Tree .expression
  | product (left : Tree .term) (op : Multiplicative) (right : Tree .unary) : Tree .term
  | ofUnary (t : Tree .unary) : Tree .term
  | signed (signs : List Sign) (operand : Tree .power) : Tree .unary
  | power (base : Tree .primary) (exponent : Tree .power) : Tree .power
  | ofPrimary (t : Tree .primary) : Tree .power
  | group (inner : Tree .expression) : Tree .primary
  | call (callee : String) (args : List (Tree .expression)) : Tree .primary
  | named (name : String) : Tree .primary
  | previous : Tree .primary
  | number (value : Float) : Tree .primary
  | factorial (operand : Tree .primary) : Tree .primary

namespace Tree

/-- Induction over all levels at once; the arguments of a call are covered one by one. -/
@[induction_eliminator, elab_as_elim]
theorem induct {motive : (l : Level) → Tree l → Prop}
    (sum : ∀ left op right, motive _ left → motive _ right → motive _ (.sum left op right))
    (ofTerm : ∀ t, motive _ t → motive _ (.ofTerm t))
    (product : ∀ left op right, motive _ left → motive _ right → motive _ (.product left op right))
    (ofUnary : ∀ t, motive _ t → motive _ (.ofUnary t))
    (signed : ∀ signs operand, motive _ operand → motive _ (.signed signs operand))
    (power : ∀ base exponent, motive _ base → motive _ exponent →
      motive _ (.power base exponent))
    (ofPrimary : ∀ t, motive _ t → motive _ (.ofPrimary t))
    (group : ∀ inner, motive _ inner → motive _ (.group inner))
    (call : ∀ callee args, (∀ arg ∈ args, motive _ arg) → motive _ (.call callee args))
    (named : ∀ name, motive _ (.named name))
    (previous : motive _ .previous)
    (number : ∀ value, motive _ (.number value))
    (factorial : ∀ operand, motive _ operand → motive _ (.factorial operand))
    {l : Level} (t : Tree l) : motive l t :=
  @Tree.rec motive (fun args => ∀ arg ∈ args, motive _ arg)
    sum ofTerm product ofUnary signed power ofPrimary group call named previous number factorial
    (fun _ h => absurd h List.not_mem_nil)
    (fun _ _ head tail => List.forall_mem_cons.mpr ⟨head, tail⟩) l t

mutual

/-- The tokens that a tree derives. -/
def tokens : {l : Level} → Tree l → List Token
  | _, .sum left op right => left.tokens ++ op.token :: right.tokens
  | _, .ofTerm t => t.tokens
  | _, .product left op right => left.tokens ++ op.token :: right.tokens
  | _, .ofUnary t => t.tokens
  | _, .signed signs operand => signs.map Sign.token ++ operand.tokens
  | _, .power base exponent => base.tokens ++ .caret :: exponent.tokens
  | _, .ofPrimary t => t.tokens
  | _, .group inner => .openParen :: (inner.tokens ++ [.closeParen])
  | _, .call callee args =>
    .identifier callee :: .openBracket ::
      ([.comma].intercalate (tokensOfAll args) ++ [.closeBracket])
  | _, .named name => [.identifier name]
  | _, .previous => [.previous]
  | _, .number value => [.number value]
  | _, .factorial operand => operand.tokens ++ [.bang]

def tokensOfAll : List (Tree .expression) → List (List Token)
  | [] => []
  | arg :: args => arg.tokens :: tokensOfAll args

end

variable (c : Calculator) (env : Environment)

mutual

/-- The value of a tree. Operands are evaluated from left to right, except that `/` and `%` begin
with their right one and refuse a zero there. A call evaluates its arguments before it looks for
the function, and checks their number before it runs the body. -/
def eval : {l : Level} → Tree l → Except Failure Float
  | _, .sum left .plus right => do return (← left.eval) + (← right.eval)
  | _, .sum left .minus right => do return (← left.eval) - (← right.eval)
  | _, .ofTerm t => t.eval
  | _, .product left .star right => do return (← left.eval) * (← right.eval)
  | _, .product left .slash right => do
    let divisor ← right.eval
    if divisor == 0 then throw (.unsupportedOperand .divisionByZero)
    return (← left.eval) / divisor
  | _, .product left .percent right => do
    let divisor ← right.eval
    if divisor == 0 then throw (.unsupportedOperand .modulusByZero)
    return Binary64.remainder (← left.eval) divisor
  | _, .ofUnary t => t.eval
  | _, .signed signs operand => do
    let x ← operand.eval
    return if signs.count .minus % 2 = 1 then -x else x
  | _, .power base exponent => do return Float.pow (← base.eval) (← exponent.eval)
  | _, .ofPrimary t => t.eval
  | _, .group inner => inner.eval
  | _, .call callee args => do
    let values ← evalAll args
    match c.functions.get? callee with
    | none => throw (.undefined callee)
    | some f =>
      if f.arity.admits values.length then f.body values
      else throw (.unsupportedOperand (.argumentCount (some callee) f.arity values.length))
  | _, .named name =>
    match c.constants.get? name, env.bindings.get? name with
    | some value, _ => return value
    | none, some value => return value
    | none, none => throw (.undefined name)
  | _, .previous => return env.previous
  | _, .number value => return value
  | _, .factorial operand => do Numeric.factorial (← operand.eval)

def evalAll : List (Tree .expression) → Except Failure (List Float)
  | [] => return []
  | arg :: args => do return (← arg.eval) :: (← evalAll args)

end

end Tree

/-- A derivation of a whole statement. -/
inductive Sentence where
  | declaration (name : String) (value : Tree .expression)
  | expression (e : Tree .expression)

namespace Sentence

def tokens : Sentence → List Token
  | declaration name value => .letKeyword :: .identifier name :: .equals :: value.tokens
  | expression e => e.tokens

/-- What a statement comes to: its value or its failure, and the environment after it. A constant
is refused as the name of a declaration before the value is evaluated, a variable after. -/
def run (c : Calculator) (env : Environment) : Sentence → EStateM.Result Failure Environment Float
  | declaration name value =>
    if c.constants.contains name then .error (.redeclared name) env
    else
      match value.eval c env with
      | .error failure => .error failure env
      | .ok x =>
        if env.bindings.contains name then .error (.redeclared name) env
        else .ok x { bindings := env.bindings.insert name x, previous := x }
  | expression e =>
    match e.eval c env with
    | .error failure => .error failure env
    | .ok x => .ok x { env with previous := x }

end Sentence

end Grammar

end Reckoner
