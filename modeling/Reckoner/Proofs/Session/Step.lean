import Reckoner.Calculator.Session

/-!
# What a step does

A step fails and leaves the environment as it was, or it makes a binding, or it has a value, or
both. `Step.Effect` lists these with all that a success tells about the step, so what holds of
every session needs no look at evaluation.
-/

namespace Reckoner

/-- What a session says to a step. -/
abbrev Answer := Except Failure (Option Float)

/-- The name that a list of tokens begins to declare. -/
def Statement.declaredName? : List Token → Option String
  | .letKeyword :: .identifier name :: .equals :: _ => some name
  | _ => none

namespace Statement

variable {ts : List Token} {e : Expr} {name : String}

theorem declaredName?_of_expression (h : ofTokens ts = .expression e) :
    declaredName? ts = none := by
  unfold ofTokens at h
  split at h <;> simp_all [declaredName?]

theorem declaredName?_of_declaration (h : ofTokens ts = .declaration name e) :
    declaredName? ts = some name := by
  obtain ⟨value, rfl, _⟩ := eq_of_declaration h
  rfl

end Statement

namespace Step

/-- The name that the statement of a step begins to declare. -/
def declaredName? : Step → Option String
  | source text =>
    match tokenize text with
    | .ok ts => Statement.declaredName? ts
    | .error _ => none
  | tokens ts => Statement.declaredName? ts
  | define _ _ => none

/-- The binding that a step made, told by its answer. -/
def binding? : Step → Answer → Option (String × Float)
  | define name value, .ok _ => some (name, value)
  | step, .ok (some x) => step.declaredName?.map fun name => (name, x)
  | _, _ => none

@[simp] theorem binding?_error (step : Step) (failure : Failure) :
    step.binding? (.error failure) = none := by
  cases step <;> rfl

/-- What a step can come to in an environment. -/
inductive Effect (c : Calculator) (step : Step) (env : Environment) : Answer → Environment → Prop
  | failed (failure : Failure) : Effect c step env (.error failure) env
  | bound {name : String} {value : Float} (defines : step = define name value)
      (free : env.bindings.contains name = false) :
      Effect c step env (.ok none) { env with bindings := env.bindings.insert name value }
  | valued {x : Float} (declares : step.binding? (.ok (some x)) = none) :
      Effect c step env (.ok (some x)) { env with previous := x }
  | declared {name : String} {x : Float}
      (declares : step.binding? (.ok (some x)) = some (name, x))
      (constant : c.constants.contains name = false)
      (free : env.bindings.contains name = false) :
      Effect c step env (.ok (some x))
        { bindings := env.bindings.insert name x, previous := x }

theorem Effect.env_of_error {c : Calculator} {step : Step} {env after : Environment}
    {failure : Failure} (h : Effect c step env (.error failure) after) : after = env := by
  cases h with
  | failed => rfl

variable (c : Calculator) (env : Environment)

theorem run_tokens (ts : List Token) :
    (tokens ts).run c env =
      match (c.statement ts).run env with
      | .ok x after => (.ok (some x), after)
      | .error failure after => (.error failure, after) := by
  cases h : (c.statement ts).run env <;> simp [run, action, h]

theorem run_source (text : String) :
    (source text).run c env =
      match (c.evaluate text).run env with
      | .ok x after => (.ok (some x), after)
      | .error failure after => (.error failure, after) := by
  cases h : (c.evaluate text).run env <;> simp [run, action, h]

theorem run_source_of_ok {text : String} {ts : List Token} (h : tokenize text = .ok ts) :
    (source text).run c env = (tokens ts).run c env := by
  simp [run, action, Calculator.evaluate, h]

theorem run_source_of_error {text : String} {failure : Failure}
    (h : tokenize text = .error failure) :
    (source text).run c env = (.error failure, env) := by
  simp [run, action, Calculator.evaluate, h]

/-- The effect of a step that carries out a statement. -/
theorem effect_of_statement {step : Step} {ts : List Token}
    (run_eq : step.run c env = (tokens ts).run c env)
    (declares : ∀ x, step.binding? (.ok (some x)) =
      (Statement.declaredName? ts).map fun name => (name, x)) :
    Effect c step env (step.run c env).1 (step.run c env).2 := by
  rw [run_eq, run_tokens, Calculator.statement]
  cases made : Statement.ofTokens ts with
  | fault why => exact .failed _
  | expression e =>
      rw [Calculator.run_expression]
      cases e.eval c env with
      | error failure => exact .failed _
      | ok x =>
          refine .valued ?_
          rw [declares, Statement.declaredName?_of_expression made]
          rfl
  | declaration name e =>
      rw [Calculator.run_declaration]
      by_cases constant : c.constants.contains name = true
      · rw [if_pos constant]
        exact .failed _
      · rw [if_neg constant]
        cases e.eval c env with
        | error failure => exact .failed _
        | ok x =>
            by_cases bound : env.bindings.contains name = true
            · simp only [if_pos bound]
              exact .failed _
            · simp only [if_neg bound]
              refine .declared ?_ (eq_false_of_ne_true constant)
                (eq_false_of_ne_true bound)
              rw [declares, Statement.declaredName?_of_declaration made]
              rfl

theorem effect_define (name : String) (value : Float) :
    Effect c (define name value) env ((define name value).run c env).1
      ((define name value).run c env).2 := by
  cases bound : env.bindings.contains name with
  | true =>
      have run_eq : (define name value).run c env = (.error (.redeclared name), env) := by
        simp [run, action, Environment.run_define_of_bound bound]
      rw [run_eq]
      exact .failed _
  | false =>
      have run_eq : (define name value).run c env =
          (.ok none, { env with bindings := env.bindings.insert name value }) := by
        simp [run, action, Environment.run_define_of_free bound]
      rw [run_eq]
      exact .bound rfl bound

/-- Every step has one of the effects. -/
theorem effect (step : Step) : Effect c step env (step.run c env).1 (step.run c env).2 := by
  cases step with
  | source text =>
      cases read : tokenize text with
      | error failure =>
          rw [run_source_of_error c env read]
          exact .failed failure
      | ok ts =>
          apply effect_of_statement c env (run_source_of_ok c env read)
          intro x
          simp only [binding?, declaredName?, read]
  | tokens ts => exact effect_of_statement c env rfl fun _ => rfl
  | define name value => exact effect_define c env name value

/-- A step that fails takes nothing with it. -/
theorem env_of_error {c : Calculator} {env : Environment} {step : Step} {failure : Failure}
    (failed : (step.run c env).1 = .error failure) : (step.run c env).2 = env := by
  have effect := step.effect c env
  rw [failed] at effect
  exact effect.env_of_error

theorem env_of_evaluate_error {c : Calculator} {env after : Environment} {text : String}
    {failure : Failure} (failed : (c.evaluate text).run env = .error failure after) :
    after = env := by
  have answer : (source text).run c env = (.error failure, after) := by
    rw [run_source, failed]
  have unchanged := env_of_error (congrArg Prod.fst answer)
  rwa [answer] at unchanged

end Step

end Reckoner
