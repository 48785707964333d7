import Reckoner.Proofs.Function.Standard
import Reckoner.Proofs.Guarded.Activation

/-!
# Statements within their bounds

A statement is carried out as it is read, with a limit on the calls inside of one another. A room of
seven calls for each token and seven more is enough for every list of tokens and whatever the
calculator and the environment hold: the statement does what it does without a limit, so it is cut
short by none and reads nothing outside of a range. The same holds of the builtins, which take their
arguments by their positions.
-/

namespace Reckoner

/-- A guarded computation that reads and changes the environment. -/
abbrev GuardedAction := EStateM Abort Environment

namespace Guarded

variable {α β : Type}

/-- An action in which nothing is checked. -/
def ofAction (a : Action α) : GuardedAction α := fun env =>
  match a.run env with
  | .ok x after => .ok x after
  | .error failure after => .error (.failed failure) after

theorem run_ofAction (a : Action α) (env : Environment) :
    (ofAction a).run env =
      match a.run env with
      | .ok x after => .ok x after
      | .error failure after => .error (.failed failure) after := rfl

@[simp] theorem ofAction_pure (x : α) : ofAction (pure x) = pure x := rfl

@[simp] theorem ofAction_get : ofAction get = get := rfl

@[simp] theorem ofAction_ofExcept (result : Except Failure α) :
    ofAction (ofExcept result) = ofExcept (ofResult result) := by
  cases result <;> rfl

@[simp] theorem ofAction_bind (a : Action α) (f : α → Action β) :
    ofAction (a >>= f) = (do
      let x ← ofAction a
      ofAction (f x)) := by
  funext env
  show ofAction (a >>= f) env = EStateM.bind (ofAction a) (fun x => ofAction (f x)) env
  simp only [ofAction, EStateM.bind, EStateM.run_bind]
  cases a.run env <;> rfl

section Run

variable (c : Calculator) (room : Nat)

/-- The value of a declaration, which is bound to its name. -/
def declaration (name : String) (ts : List Token) : GuardedAction Float := do
  if ts.isEmpty then throw (.failed (.syntaxError (.missingValue name)))
  if c.constants.contains name then throw (.failed (.redeclared name))
  let x ← ofExcept (Activation.run c (← get) room (.expression ts))
  ofAction (Environment.define name x)
  return x

def value : List Token → GuardedAction Float
  | [] => throw (.failed (.syntaxError .emptyStatement))
  | .letKeyword :: .identifier name :: .equals :: ts => declaration c room name ts
  | .letKeyword :: _ => throw (.failed (.syntaxError .malformedDeclaration))
  | ts => do ofExcept (Activation.run c (← get) room (.expression ts))

/-- Carries out a statement, with room for so many calls inside of one another. -/
def statement (ts : List Token) : GuardedAction Float := do
  let x ← value c room ts
  ofAction (Environment.remember x)
  return x

end Run

section Builtin

def permutation (args : List Float) : Guarded Float := do
  ofResult (checkCount 2 args)
  let n ← item args 0
  let k ← item args 1
  return (← ofResult (Numeric.factorial n)) / (← ofResult (Numeric.factorial (n - k)))

/-- The value of a builtin, where its arguments are taken by their positions. -/
def builtin : Builtin → List Float → Guarded Float
  | .elementary f, args => do
    ofResult (checkCount 1 args)
    return f.eval (← item args 0)
  | .sum, args => .ok (Builtin.total args)
  | .average, args =>
    if args.isEmpty then .error (.failed (.unsupportedOperand .averageOfNothing))
    else .ok (Builtin.total args / Float.ofNat args.length)
  | .factorial, args => do
    ofResult (checkCount 1 args)
    ofResult (Numeric.factorial (← item args 0))
  | .permutation, args => permutation args
  | .combination, args => do
    ofResult (checkCount 2 args)
    let ordered ← permutation args
    return ordered / (← ofResult (Numeric.factorial (← item args 1)))

/-- What is left to see of a builtin that checks the number of its arguments first. -/
theorem checked {b : Builtin} {count : Nat} {args : List Float} {rest : Guarded Float}
    (arity : b.arity = .exactly count)
    (admitted : args.length = count → rest = ofResult (b.apply args)) :
    (do
      ofResult (checkCount count args)
      rest) = ofResult (b.apply args) := by
  by_cases length : args.length = count
  · rw [admitted length, checkCount, if_pos length]
    rfl
  · have refused : checkCount count args = .error (wrongCount count args.length) := if_neg length
    rw [Builtin.apply_of_checkCount arity refused, refused]
    rfl

theorem permutation_eq (args : List Float) :
    permutation args = ofResult (Builtin.permutation.apply args) := by
  refine checked rfl fun length => ?_
  match args, length with
  | [n, k], _ =>
    simp only [Builtin.apply, Builtin.selections, ofResult_bind, ofResult_pure]
    rfl

theorem builtin_eq (b : Builtin) (args : List Float) :
    builtin b args = ofResult (b.apply args) := by
  cases b with
  | elementary f =>
      refine checked rfl fun length => ?_
      obtain ⟨x, rfl⟩ := List.length_eq_one_iff.mp length
      rfl
  | sum => rfl
  | average => cases args <;> rfl
  | factorial =>
      refine checked rfl fun length => ?_
      obtain ⟨x, rfl⟩ := List.length_eq_one_iff.mp length
      rfl
  | permutation => exact permutation_eq args
  | combination =>
      refine checked rfl fun length => ?_
      match args, length with
      | [n, k], _ =>
        simp only [permutation_eq, Builtin.apply, Builtin.choices, ofResult_bind, ofResult_pure]
        rfl

end Builtin

theorem run_expression {c : Calculator} {room : Nat} {ts : List Token}
    (enough : 7 * ts.length + 5 ≤ room) (env : Environment) :
    Activation.run c env room (.expression ts) = ofResult ((Reader.expression ts).eval c env) :=
  answers_run c env room (.expression ts) enough

theorem declaration_eq (c : Calculator) {room : Nat} (name : String) {ts : List Token}
    (nonempty : ts ≠ []) (enough : 7 * ts.length + 5 ≤ room) :
    declaration c room name ts =
      ofAction (c.value (.declaration name (Reader.expression ts))) := by
  have given : ts.isEmpty = false := List.isEmpty_eq_false_iff.mpr nonempty
  cases constant : c.constants.contains name with
  | true =>
      simp only [declaration, Calculator.value, given, constant]
      rfl
  | false =>
      simp only [declaration, Calculator.value, given, constant, run_expression enough,
        ofAction_bind, ofAction_get, ofAction_ofExcept, ofAction_pure, Bool.false_eq_true, if_false]

theorem value_eq (c : Calculator) (ts : List Token) :
    value c (7 * ts.length + 7) ts = ofAction (c.value (.ofTokens ts)) := by
  unfold Statement.ofTokens
  split
  · rfl
  · rfl
  · next name ts nonempty =>
    exact declaration_eq c name nonempty (by simp only [List.length_cons]; omega)
  · next ts noValue noName =>
    rw [value]
    · rfl
    · exact noName
  · next ts nonempty _ noDeclaration noLet =>
    rw [value]
    · simp only [Calculator.value, run_expression (Nat.le_add_right _ 2), ofAction_bind,
        ofAction_get, ofAction_ofExcept]
    · exact nonempty
    · exact noDeclaration
    · exact noLet

theorem statement_eq (c : Calculator) (ts : List Token) :
    statement c (7 * ts.length + 7) ts = ofAction (c.statement ts) := by
  simp only [statement, Calculator.statement, Calculator.perform, value_eq, ofAction_bind,
    ofAction_pure]

/-- With room for seven calls inside of one another for each token and seven more, a statement does
what it does without a limit, whatever its tokens, the calculator and the environment are; and so
does a builtin with any arguments, if it takes them by their positions. As neither ends with
`tooDeep` or `outOfRange`, no chain of calls is longer and nothing is read outside of a range. -/
theorem statement_within_bounds (c : Calculator) (ts : List Token) (env : Environment) :
    (statement c (7 * ts.length + 7) ts).run env =
      (match (c.statement ts).run env with
      | .ok x after => .ok x after
      | .error failure after => .error (.failed failure) after) ∧
    ∀ (b : Builtin) (args : List Float), builtin b args = ofResult (b.apply args) := by
  refine ⟨?_, builtin_eq⟩
  rw [statement_eq, run_ofAction]
  cases (c.statement ts).run env <;> rfl

end Guarded

end Reckoner
