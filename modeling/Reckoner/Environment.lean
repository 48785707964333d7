import Reckoner.Failure
import Reckoner.Table

/-!
# Environments

An environment is what one statement leaves to the next: the variables, each of which is bound
once and for all, and the value of the latest statement that had one. An action changes it step by
step. A failure ends an action but takes back none of the steps before it, so that a statement
which fails leaves the environment alone is a property of the order of its steps.
-/

namespace Reckoner

structure Environment where
  bindings : Table Float := {}
  /-- The value of `_`. -/
  previous : Float := 0

/-- A computation that reads and changes the environment, and may fail at any step. -/
abbrev Action := EStateM Failure Environment

namespace Action

variable {α β : Type}

@[simp] theorem run_map (f : α → β) (a : Action α) (env : Environment) :
    EStateM.run (f <$> a) env =
      match EStateM.run a env with
      | .ok x after => .ok (f x) after
      | .error failure after => .error failure after := by
  cases h : EStateM.run a env <;> simp [← bind_pure_comp, h]

@[simp] theorem run_ofExcept (result : Except Failure α) (env : Environment) :
    EStateM.run (ofExcept result : Action α) env =
      match result with
      | .ok x => .ok x env
      | .error failure => .error failure env := by
  cases result <;> rfl

end Action

namespace Environment

/-- Binds a variable, unless it is bound already. -/
def define (name : String) (value : Float) : Action Unit := do
  if (← get).bindings.contains name then throw (.redeclared name)
  modify fun env => { env with bindings := env.bindings.insert name value }

/-- Keeps the value of a statement for the next one. -/
def remember (value : Float) : Action Unit :=
  modify fun env => { env with previous := value }

theorem run_define_of_bound {env : Environment} {name : String}
    (bound : env.bindings.contains name = true) (value : Float) :
    (define name value).run env = .error (.redeclared name) env := by
  simp [define, bound]

theorem run_define_of_free {env : Environment} {name : String}
    (free : env.bindings.contains name = false) (value : Float) :
    (define name value).run env =
      .ok () { env with bindings := env.bindings.insert name value } := by
  simp [define, free]

@[simp] theorem run_remember (env : Environment) (value : Float) :
    (remember value).run env = .ok () { env with previous := value } := rfl

end Environment

end Reckoner
