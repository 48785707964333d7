import Reckoner.Calculator.Evaluate

/-!
# Sessions

A session carries out one step after the other, each in the environment that the one before it
left, whether that one failed or not.
-/

namespace Reckoner

/-- What can be done to an environment: a statement as text or as tokens, or a binding made
directly. -/
inductive Step where
  | source (text : String)
  | tokens (ts : List Token)
  | define (name : String) (value : Float)

namespace Step

variable (c : Calculator)

/-- What a step does. A binding has no value. -/
def action : Step → Action (Option Float)
  | source text => do return some (← c.evaluate text)
  | tokens ts => do return some (← c.statement ts)
  | define name value => do
    Environment.define name value
    return none

/-- The answer to a step and the environment for the next one. -/
def run (env : Environment) (step : Step) : Except Failure (Option Float) × Environment :=
  match (step.action c).run env with
  | .ok value after => (.ok value, after)
  | .error failure after => (.error failure, after)

end Step

/-- The answers to the steps of a session, and the environment that it leaves. -/
def Calculator.session (c : Calculator) :
    Environment → List Step → List (Except Failure (Option Float)) × Environment
  | env, [] => ([], env)
  | env, step :: steps =>
    let (answer, after) := step.run c env
    let (answers, final) := c.session after steps
    (answer :: answers, final)

end Reckoner
