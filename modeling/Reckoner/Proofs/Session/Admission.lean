import Reckoner.Calculator.Session
import Reckoner.Proofs.Session.Noninterference

/-!
# Bodies run on admitted arguments only

A call checks the number of its arguments before the body of the function runs, so two bodies that
agree on the lists that the arity admits answer every call alike. As evaluation knows functions by
their answers only, no statement and no session can tell the two apart, however deep the call is in
an expression. What a body would do with fewer arguments than its arity guarantees never shows.
-/

namespace Reckoner

namespace Arity

/-- The number of arguments that a body can count on. -/
def guaranteed : Arity → Nat
  | any => 0
  | exactly count => count
  | atLeast count => count

theorem guaranteed_le_of_admits {a : Arity} {n : Nat} (h : a.admits n = true) :
    a.guaranteed ≤ n := by
  cases a with
  | any => exact Nat.zero_le n
  | exactly count => exact Nat.le_of_eq (beq_iff_eq.mp h).symm
  | atLeast count => exact of_decide_eq_true h

end Arity

namespace Calculator

/-- The calculator with another body in a function that is registered with it. -/
def withBody (c : Calculator) (name : String) (f : Callable)
    (body : List Float → Except Failure Float) : Calculator :=
  { c with functions := c.functions.insert name { f with body } }

section Calls

variable {c c' : Calculator} (constants : c.constants = c'.constants)
  (calls : ∀ name args, c.functions.call name args = c'.functions.call name args)
include constants calls

/-- Evaluation knows functions by their answers only. -/
theorem eval_eq_of_calls (env : Environment) (e : Expr) : e.eval c env = e.eval c' env := by
  apply e.eval_congr
  intro m _
  cases m with
  | bare name => simp only [Mention.Same, lookup, constants]
  | callee name => exact calls name
  | previous => rfl
  | flaw why => trivial

theorem statement_eq_of_calls (ts : List Token) : c.statement ts = c'.statement ts := by
  funext env
  have result : c.result env ts = c'.result env ts := by
    simp only [Calculator.result, constants, eval_eq_of_calls constants calls]
  have run : (c.statement ts).run env = (c'.statement ts).run env := by
    rw [run_statement, run_statement, result]
  exact run

theorem step_eq_of_calls (env : Environment) (step : Step) : step.run c env = step.run c' env := by
  have action : step.action c = step.action c' := by
    cases step with
    | source text => simp only [Step.action, evaluate, statement_eq_of_calls constants calls]
    | tokens ts => simp only [Step.action, statement_eq_of_calls constants calls]
    | define name value => rfl
  rw [Step.run, Step.run, action]

theorem session_eq_of_calls (env : Environment) (steps : List Step) :
    c.session env steps = c'.session env steps := by
  induction steps generalizing env with
  | nil => rfl
  | cons step steps ih =>
      simp only [session, step_eq_of_calls constants calls, ih]

end Calls

variable {c : Calculator} {name : String} {f : Callable}
  {body : List Float → Except Failure Float}

theorem constants_withBody (c : Calculator) (name : String) (f : Callable)
    (body : List Float → Except Failure Float) :
    (c.withBody name f body).constants = c.constants := rfl

/-- Every call is answered as before by a body that agrees on the admitted lists. -/
theorem call_withBody (registered : c.functions.get? name = some f)
    (same : ∀ args, f.arity.admits args.length = true → body args = f.body args)
    (callee : String) (args : List Float) :
    (c.withBody name f body).functions.call callee args = c.functions.call callee args := by
  by_cases here : callee = name
  · subst here
    simp only [Library.call, withBody, Table.get?_insert_self, registered]
    split
    · next admitted => exact same args admitted
    · rfl
  · simp only [Library.call, withBody, Table.get?_insert_of_ne _ _ here]

theorem statement_withBody (registered : c.functions.get? name = some f)
    (same : ∀ args, f.arity.admits args.length = true → body args = f.body args)
    (ts : List Token) : (c.withBody name f body).statement ts = c.statement ts :=
  statement_eq_of_calls (c.constants_withBody name f body) (call_withBody registered same) ts

theorem session_withBody (registered : c.functions.get? name = some f)
    (same : ∀ args, f.arity.admits args.length = true → body args = f.body args)
    (env : Environment) (steps : List Step) :
    (c.withBody name f body).session env steps = c.session env steps :=
  session_eq_of_calls (c.constants_withBody name f body) (call_withBody registered same) env steps

end Calculator

/-- A function's body runs only on argument lists that its arity admits. It can be replaced by any
body that agrees with it on these: every statement comes to the same in every environment and
leaves the same behind, and so does every session. In particular it does not matter what the body
does with fewer arguments than are guaranteed. -/
theorem body_runs_on_admitted_only (c : Calculator) {name : String} {f : Callable}
    (registered : c.functions.get? name = some f) :
    (∀ body, (∀ args, f.arity.admits args.length = true → body args = f.body args) →
      (∀ ts env, ((c.withBody name f body).statement ts).run env = (c.statement ts).run env) ∧
      ∀ steps env, (c.withBody name f body).session env steps = c.session env steps) ∧
    ∀ (fallback : List Float → Except Failure Float) ts env,
      let body args := if f.arity.guaranteed ≤ args.length then f.body args else fallback args
      ((c.withBody name f body).statement ts).run env = (c.statement ts).run env := by
  constructor
  · intro body same
    constructor
    · intro ts env
      rw [Calculator.statement_withBody registered same]
    · intro steps env
      rw [Calculator.session_withBody registered same]
  · intro fallback ts env body
    have same : ∀ args, f.arity.admits args.length = true → body args = f.body args :=
      fun args admitted => if_pos (Arity.guaranteed_le_of_admits admitted)
    rw [Calculator.statement_withBody registered same]

/-- A function that doubles its first argument, with a body that refuses to have none or more than
one. The statement calls it with one argument inside of a call with two. -/
theorem body_runs_on_admitted_only_twice :
    let f : Callable := ⟨.exactly 1, fun args => .ok (2 * args.headD 0)⟩
    let body : List Float → Except Failure Float
      | [x] => .ok (2 * x)
      | _ => .error .unbalanced
    let c : Calculator := { functions := .ofList [("twice", f)] }
    let ts : List Token := [.identifier "twice", .openBracket, .identifier "twice", .openBracket,
      .number 1, .closeBracket, .comma, .number 2, .closeBracket]
    c.functions.get? "twice" = some f ∧ body [1, 2] ≠ f.body [1, 2] ∧
      (∀ args, f.arity.admits args.length = true → body args = f.body args) ∧
      ((c.withBody "twice" f body).statement ts).run {} = (c.statement ts).run {} := by
  intro f body c ts
  have same : ∀ args, f.arity.admits args.length = true → body args = f.body args := by
    intro args admitted
    obtain ⟨x, rfl⟩ := List.length_eq_one_iff.mp (beq_iff_eq.mp admitted)
    rfl
  exact ⟨rfl, nofun, same, ((body_runs_on_admitted_only c rfl).1 body same).1 ts {}⟩

end Reckoner
