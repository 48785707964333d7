import Reckoner.Proofs.Session.Step

/-!
# What a statement comes to and what it leaves

The run of a statement is taken apart into its result, which is a value or a failure, and the
environment after it. A failure leaves the environment as it was; with a value, the change is told
by the value and the declared name. So two runs with the same result change their environments in
the same way, whatever else is in these.
-/

namespace Reckoner

/-- The value of a statement, or its failure. -/
def Calculator.result (c : Calculator) (env : Environment) (ts : List Token) :
    Except Failure Float :=
  match Statement.ofTokens ts with
  | .fault why => .error (.syntaxError why)
  | .expression e => e.eval c env
  | .declaration name e =>
    if c.constants.contains name then .error (.redeclared name)
    else
      match e.eval c env with
      | .error failure => .error failure
      | .ok x => if env.bindings.contains name then .error (.redeclared name) else .ok x

/-- The environment after a statement that has a value. -/
def Environment.after (env : Environment) (ts : List Token) (x : Float) : Environment where
  bindings :=
    match Statement.declaredName? ts with
    | some name => env.bindings.insert name x
    | none => env.bindings
  previous := x

/-- The environment after a statement that has a result. -/
def Environment.afterResult (env : Environment) (ts : List Token) :
    Except Failure Float → Environment
  | .ok x => env.after ts x
  | .error _ => env

namespace Environment

variable (env : Environment) (ts : List Token) (x : Float)

theorem get?_after_of_declared {name : String} (h : Statement.declaredName? ts = some name) :
    (env.after ts x).bindings.get? name = some x := by
  simp [after, h]

theorem get?_after_of_ne {name : String} (h : Statement.declaredName? ts ≠ some name) :
    (env.after ts x).bindings.get? name = env.bindings.get? name := by
  cases declared : Statement.declaredName? ts with
  | none => simp [after, declared]
  | some other =>
      have ne : name ≠ other := fun same => h (by rw [declared, same])
      simp [after, declared, Table.get?_insert_of_ne _ _ ne]

end Environment

variable {c : Calculator} {env : Environment} {ts : List Token}

/-- A statement comes to its result and changes nothing if that is a failure. -/
theorem Calculator.run_statement : (c.statement ts).run env =
    match c.result env ts with
    | .ok x => .ok x (env.after ts x)
    | .error failure => .error failure env := by
  rw [statement, result]
  cases made : Statement.ofTokens ts with
  | fault why => rfl
  | expression e =>
      have declared := Statement.declaredName?_of_expression made
      rw [run_expression]
      cases value : e.eval c env <;> simp [value, Environment.after, declared]
  | declaration name e =>
      have declared := Statement.declaredName?_of_declaration made
      rw [run_declaration]
      by_cases constant : c.constants.contains name = true
      · simp [constant]
      · cases value : e.eval c env with
        | error failure => simp [constant, value]
        | ok x =>
            by_cases bound : env.bindings.contains name = true <;>
              simp [constant, value, bound, Environment.after, declared]

/-- The step carries out the statement of a list of tokens, given as they are or as text. -/
inductive Step.Carries (ts : List Token) : Step → Prop
  | tokens : Carries ts (.tokens ts)
  | source {text : String} : tokenize text = .ok ts → Carries ts (.source text)

theorem Step.run_of_carries {step : Step} (h : step.Carries ts) :
    step.run c env = ((c.result env ts).map some, env.afterResult ts (c.result env ts)) := by
  have same : step.run c env = (Step.tokens ts).run c env := by
    cases h with
    | tokens => rfl
    | source read => exact run_source_of_ok c env read
  rw [same, run_tokens, Calculator.run_statement]
  cases c.result env ts <;> rfl

end Reckoner
