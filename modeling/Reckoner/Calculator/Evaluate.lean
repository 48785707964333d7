import Reckoner.Expr.Eval
import Reckoner.Lexeme
import Reckoner.Statement

/-!
# Evaluating statements

A statement that succeeds has a value, and `_` is that value afterwards; a declaration also binds
its name. An expression is evaluated in the environment that the statement finds. The environment
changes at two places only: where a declaration has its value, and where a statement has its own.
-/

namespace Reckoner.Calculator

variable (c : Calculator)

/-- The value of a statement, before it is kept for the next one. A constant cannot be declared
again, and that is found out before the value is evaluated; a variable cannot either, and that is
found out after. -/
def value : Statement → Action Float
  | .expression e => do ofExcept (e.eval c (← get))
  | .declaration name e => do
    if c.constants.contains name then throw (.redeclared name)
    let x ← ofExcept (e.eval c (← get))
    Environment.define name x
    return x
  | .fault why => throw (.syntaxError why)

/-- Carries out a statement. -/
def perform (s : Statement) : Action Float := do
  let x ← c.value s
  Environment.remember x
  return x

variable {c} {env : Environment}

theorem run_perform (s : Statement) :
    (c.perform s).run env =
      match (c.value s).run env with
      | .ok x after => .ok x { after with previous := x }
      | .error failure after => .error failure after := by
  cases h : (c.value s).run env <;> simp [perform, h]

theorem run_expression (e : Expr) :
    (c.perform (.expression e)).run env =
      match e.eval c env with
      | .ok x => .ok x { env with previous := x }
      | .error failure => .error failure env := by
  cases h : e.eval c env <;> simp [run_perform, value, h]

theorem run_declaration (name : String) (e : Expr) :
    (c.perform (.declaration name e)).run env =
      if c.constants.contains name then .error (.redeclared name) env
      else
        match e.eval c env with
        | .error failure => .error failure env
        | .ok x =>
          if env.bindings.contains name then .error (.redeclared name) env
          else .ok x { bindings := env.bindings.insert name x, previous := x } := by
  rw [run_perform, value]
  by_cases constant : c.constants.contains name = true
  · simp [constant]
  cases h : e.eval c env with
  | error failure => simp [constant, h]
  | ok x =>
      by_cases bound : env.bindings.contains name = true
      · simp [constant, h, bound, Environment.run_define_of_bound]
      · simp [constant, h, bound, Environment.run_define_of_free]

theorem run_expression_eq_ok {e : Expr} {x : Float} {after : Environment} :
    (c.perform (.expression e)).run env = .ok x after ↔
      e.eval c env = .ok x ∧ after = { env with previous := x } := by
  rw [run_expression]
  cases e.eval c env with
  | error failure => exact ⟨nofun, nofun⟩
  | ok y =>
      constructor
      · rintro ⟨⟩
        exact ⟨rfl, rfl⟩
      · rintro ⟨⟨⟩, rfl⟩
        rfl

theorem run_declaration_eq_ok {name : String} {e : Expr} {x : Float} {after : Environment} :
    (c.perform (.declaration name e)).run env = .ok x after ↔
      c.constants.contains name = false ∧ e.eval c env = .ok x ∧
        env.bindings.contains name = false ∧
        after = { bindings := env.bindings.insert name x, previous := x } := by
  rw [run_declaration]
  by_cases constant : c.constants.contains name = true
  · simp [constant]
  cases e.eval c env with
  | error failure => simp [constant]
  | ok y =>
      by_cases bound : env.bindings.contains name = true
      · simp [constant, bound]
      · simp only [constant, bound]
        constructor
        · rintro ⟨⟩
          exact ⟨trivial, rfl, trivial, rfl⟩
        · rintro ⟨_, ⟨⟩, _, rfl⟩
          rfl

theorem run_fault (why : SyntaxFault) :
    (c.perform (.fault why)).run env = .error (.syntaxError why) env := rfl

/-- Carries out the statement that a list of tokens makes. -/
def statement (ts : List Token) : Action Float :=
  c.perform (.ofTokens ts)

/-- Carries out the statement that a text writes. -/
def evaluate (source : String) : Action Float := do
  let ts ← ofExcept (tokenize source)
  c.statement ts

theorem run_evaluate_eq_ok {source : String} {x : Float} {after : Environment} :
    (c.evaluate source).run env = .ok x after ↔
      ∃ ts, tokenize source = .ok ts ∧ (c.statement ts).run env = .ok x after := by
  cases h : tokenize source <;> simp [evaluate, h]

end Reckoner.Calculator
