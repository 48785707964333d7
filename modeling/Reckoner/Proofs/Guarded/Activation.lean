import Reckoner.Calculator.Evaluate
import Reckoner.Proofs.Grammar.Soundness
import Reckoner.Proofs.Guarded.Range

/-!
# Evaluation with its calls counted

The evaluator is written here without a tree, as one function for each level of the grammar: a
function cuts its range and calls another on a part of it. An `Activation` is such a call, and
`enter` makes the calls inside of a call. `run` makes them as long as there is room for one more
inside of those that have not returned, and every range is checked to be one.

Most levels hand the whole of their range on, and the arguments of a call are expressions again, so
neither the length nor the level alone goes down from a call to the ones inside of it. `rank` is
made up of both, and it does. A call of a rank that there is room for therefore has the value of the
tree of its range: no chain of calls is longer than that, and no range is left.
-/

namespace Reckoner

namespace Guarded

/-- A call of a function of the evaluator, with the type of what it returns. -/
inductive Activation : Type → Type where
  | expression (ts : List Token) : Activation Float
  | term (ts : List Token) : Activation Float
  | unary (ts : List Token) : Activation Float
  | power (ts : List Token) : Activation Float
  | primary (ts : List Token) : Activation Float
  /-- A call by name, where `bracketed` are the arguments with their brackets. -/
  | call (callee : String) (bracketed : List Token) : Activation Float
  | arguments (ts : List Token) : Activation (List Float)

/-- Refuses a zero on the right. -/
def nonzero (fault : OperandFault) (divisor : Float) : Guarded Float :=
  if divisor == 0 then .error (.failed (.unsupportedOperand fault)) else .ok divisor

theorem nonzero_bind {α : Type} (fault : OperandFault) (divisor : Float)
    (next : Float → Guarded α) :
    (nonzero fault divisor >>= next) =
      if divisor == 0 then .error (.failed (.unsupportedOperand fault)) else next divisor := by
  rw [nonzero]
  split <;> rfl

section Body

variable (c : Calculator) (env : Environment) (enter : {β : Type} → Activation β → Guarded β)

def expression (ts : List Token) : Guarded Float := do
  match ← cut ts Reader.additive .last with
  | none => enter (.term ts)
  | some s =>
    let left ← enter (.expression s.before)
    let right ← enter (.term s.after)
    return if s.operator == .plus then left + right else left - right

def term (ts : List Token) : Guarded Float := do
  match ← cut ts Reader.multiplicative .last with
  | none => enter (.unary ts)
  | some s =>
    match s.operator with
    | .star => return (← enter (.term s.before)) * (← enter (.unary s.after))
    | .slash =>
      let divisor ← nonzero .divisionByZero (← enter (.unary s.after))
      return (← enter (.term s.before)) / divisor
    | _ =>
      let divisor ← nonzero .modulusByZero (← enter (.unary s.after))
      return Binary64.remainder (← enter (.term s.before)) divisor

def unary (ts : List Token) : Guarded Float := do
  let signs := (ts.takeWhile Token.isPlusOrMinus).length
  let negative := (← range ts 0 signs).count .minus % 2 == 1
  let magnitude ← enter (.power (← range ts signs ts.length))
  return if negative then -magnitude else magnitude

def power (ts : List Token) : Guarded Float := do
  match ← cut ts [.caret] .first with
  | none => enter (.primary ts)
  | some s => return (← enter (.primary s.before)).pow (← enter (.power s.after))

def primary (ts : List Token) : Guarded Float :=
  match ts.getLast?, ts with
  | none, _ => .error (.failed (.syntaxError .missingOperand))
  | some .bang, _ => do ofResult (Numeric.factorial (← enter (.primary ts.dropLast)))
  | some .closeParen, .openParen :: rest => enter (.expression rest.dropLast)
  | _, .openParen :: _ => .error (.failed .unbalanced)
  | _, .identifier callee :: .openBracket :: rest => enter (.call callee (.openBracket :: rest))
  | _, _ => ofResult ((Reader.atom ts).eval c env)

def call (callee : String) (bracketed : List Token) : Guarded Float :=
  match bracketed.getLast?, bracketed with
  | some .closeBracket, .openBracket :: rest => do
    let args ← if rest.dropLast.isEmpty then .ok [] else enter (.arguments rest.dropLast)
    ofResult (c.functions.call callee args)
  | _, _ => .error (.failed .unbalanced)

def arguments (ts : List Token) : Guarded (List Float) := do
  match ← cut ts [.comma] .last with
  | none => return [← enter (.expression ts)]
  | some s => return (← enter (.arguments s.before)) ++ [← enter (.expression s.after)]

end Body

/-- What a call by name returns, as its tree has it. -/
def callResult (c : Calculator) (env : Environment) (callee : String) (bracketed : List Token) :
    Except Failure Float :=
  match bracketed.getLast?, bracketed with
  | some .closeBracket, .openBracket :: _ =>
    (Reader.primary (.identifier callee :: bracketed)).eval c env
  | _, _ => .error .unbalanced

namespace Activation

variable {α : Type}

/-- What a call does, where `enter` makes the calls inside of it. -/
def body (c : Calculator) (env : Environment) (enter : {β : Type} → Activation β → Guarded β) :
    Activation α → Guarded α
  | .expression ts => Guarded.expression enter ts
  | .term ts => Guarded.term enter ts
  | .unary ts => Guarded.unary enter ts
  | .power ts => Guarded.power enter ts
  | .primary ts => Guarded.primary c env enter ts
  | .call callee bracketed => Guarded.call c enter callee bracketed
  | .arguments ts => Guarded.arguments enter ts

/-- Makes a call, with room for so many calls inside of one another, itself included. -/
def run (c : Calculator) (env : Environment) : Nat → {α : Type} → Activation α → Guarded α
  | 0, _, _ => .error .tooDeep
  | room + 1, _, a => a.body c env (run c env room)

/-- What a call returns, as the tree of its range has it. -/
def result (c : Calculator) (env : Environment) : Activation α → Except Failure α
  | .expression ts => (Reader.expression ts).eval c env
  | .term ts => (Reader.term ts).eval c env
  | .unary ts => (Reader.unary ts).eval c env
  | .power ts => (Reader.power ts).eval c env
  | .primary ts => (Reader.primary ts).eval c env
  | .call callee bracketed => callResult c env callee bracketed
  | .arguments ts => Expr.evalAll c env (Reader.arguments ts)

/-- A bound on the calls inside of one another, the call itself included. -/
def rank : Activation α → Nat
  | .expression ts => 7 * ts.length + 5
  | .term ts => 7 * ts.length + 4
  | .unary ts => 7 * ts.length + 3
  | .power ts => 7 * ts.length + 2
  | .primary ts => 7 * ts.length + 1
  | .call _ bracketed => 7 * bracketed.length + 7
  | .arguments ts => 7 * ts.length + 6

/-- The calls that there is room for return what the trees of their ranges have. -/
def Answers (c : Calculator) (env : Environment) (enter : {β : Type} → Activation β → Guarded β)
    (room : Nat) : Prop :=
  ∀ {β : Type} (b : Activation β), b.rank ≤ room → enter b = ofResult (b.result c env)

end Activation

section Step

open Activation (Answers)

variable {α : Type} {c : Calculator} {env : Environment} {ts inner : List Token}
variable {enter : {β : Type} → Activation β → Guarded β}

theorem expression_eq (answers : Answers c env enter (7 * ts.length + 4)) :
    expression enter ts = ofResult ((Reader.expression ts).eval c env) := by
  refine cut_bind (fun refused => ?_) (fun whole => ?_) fun s parts => ?_
  · rw [Reader.expression_of_error refused, Expr.eval, Flaw.failure]
  · rw [Reader.expression_of_none whole]
    exact answers (.term ts) (Nat.le_refl _)
  · have before := length_before_lt parts
    have after := length_after_lt parts
    obtain ⟨op, eq⟩ :=
      Grammar.Additive.exists_of_contains (contains_operator_of_splitTopLevel parts)
    simp only [answers (.expression s.before) (by simp only [Activation.rank]; omega),
      answers (.term s.after) (by simp only [Activation.rank]; omega), Activation.result,
      Reader.expression_of_some parts, ← eq]
    cases op <;> simp only [Expr.eval, Grammar.Additive.token, BinaryOp.ofToken,
      BinaryOp.zeroFault?, BinaryOp.apply, ofResult_bind, ofResult_pure] <;> rfl

theorem term_eq (answers : Answers c env enter (7 * ts.length + 3)) :
    term enter ts = ofResult ((Reader.term ts).eval c env) := by
  refine cut_bind (fun refused => ?_) (fun whole => ?_) fun s parts => ?_
  · rw [Reader.term_of_error refused, Expr.eval, Flaw.failure]
  · rw [Reader.term_of_none whole]
    exact answers (.unary ts) (Nat.le_refl _)
  · have before := length_before_lt parts
    have after := length_after_lt parts
    obtain ⟨op, eq⟩ :=
      Grammar.Multiplicative.exists_of_contains (contains_operator_of_splitTopLevel parts)
    simp only [answers (.term s.before) (by simp only [Activation.rank]; omega),
      answers (.unary s.after) (by simp only [Activation.rank]; omega), Activation.result,
      Reader.term_of_some parts, ← eq]
    cases op <;> simp only [Expr.eval, Grammar.Multiplicative.token, BinaryOp.ofToken,
      BinaryOp.zeroFault?, BinaryOp.apply, ofResult_bind, ofResult_pure, ofResult_error,
      nonzero_bind, apply_ite ofResult]

/-- What the signs in front of a power do to its value. -/
theorem eval_unary (c : Calculator) (env : Environment) (ts : List Token) :
    (Reader.unary ts).eval c env = do
      let x ← (Reader.power (ts.dropWhile Token.isPlusOrMinus)).eval c env
      return if (ts.takeWhile Token.isPlusOrMinus).count .minus % 2 == 1 then -x else x := by
  have negates : ((ts.takeWhile Token.isPlusOrMinus).filterMap Sign.ofToken?).count .minus =
      (ts.takeWhile Token.isPlusOrMinus).count .minus := by
    rw [List.count_filterMap, List.count]
    refine List.countP_congr fun t _ => ?_
    cases t <;> exact Iff.rfl
  rw [Reader.unary, ← negates]
  generalize (ts.takeWhile Token.isPlusOrMinus).filterMap Sign.ofToken? = signs
  cases signs with
  | nil => simp
  | cons sign signs => rfl

theorem take_length_takeWhile (p : Token → Bool) (ts : List Token) :
    ts.take (ts.takeWhile p).length = ts.takeWhile p :=
  (List.prefix_iff_eq_take.mp (List.takeWhile_prefix p)).symm

theorem drop_length_takeWhile (p : Token → Bool) (ts : List Token) :
    ts.drop (ts.takeWhile p).length = ts.dropWhile p := by
  apply (List.append_right_inj (ts.takeWhile p)).mp
  calc ts.takeWhile p ++ ts.drop (ts.takeWhile p).length
    _ = ts.take (ts.takeWhile p).length ++ ts.drop (ts.takeWhile p).length := by
      rw [take_length_takeWhile]
    _ = ts := List.take_append_drop _ ts
    _ = ts.takeWhile p ++ ts.dropWhile p := List.takeWhile_append_dropWhile.symm

theorem unary_eq (answers : Answers c env enter (7 * ts.length + 2)) :
    unary enter ts = ofResult ((Reader.unary ts).eval c env) := by
  have inside : (ts.takeWhile Token.isPlusOrMinus).length ≤ ts.length :=
    (List.takeWhile_prefix Token.isPlusOrMinus).length_le
  have shorter : (ts.dropWhile Token.isPlusOrMinus).length ≤ ts.length :=
    (List.dropWhile_suffix Token.isPlusOrMinus).length_le
  have value := answers (.power (ts.dropWhile Token.isPlusOrMinus))
    (by simp only [Activation.rank]; omega)
  simp only [unary, range_take inside, range_drop inside, take_length_takeWhile,
    drop_length_takeWhile, ok_bind, value, Activation.result, eval_unary, ofResult_bind,
    ofResult_pure]

theorem power_eq (answers : Answers c env enter (7 * ts.length + 1)) :
    power enter ts = ofResult ((Reader.power ts).eval c env) := by
  refine cut_bind (fun refused => ?_) (fun whole => ?_) fun s parts => ?_
  · rw [Reader.power_of_error refused, Expr.eval, Flaw.failure]
  · rw [Reader.power_of_none whole]
    exact answers (.primary ts) (Nat.le_refl _)
  · have before := length_before_lt parts
    have after := length_after_lt parts
    simp only [answers (.primary s.before) (by simp only [Activation.rank]; omega),
      answers (.power s.after) (by simp only [Activation.rank]; omega), Activation.result,
      Reader.power_of_some parts, Expr.eval, BinaryOp.zeroFault?, BinaryOp.apply, ofResult_bind,
      ofResult_pure]

theorem exists_inner {opener closer : Token} {rest : List Token}
    (closed : (opener :: rest).getLast? = some closer) (other : opener ≠ closer) :
    ∃ inner, rest = inner ++ [closer] := by
  obtain ⟨init, eq⟩ := List.getLast?_eq_some_iff.mp closed
  cases init with
  | nil => exact absurd (List.cons.inj eq).1 other
  | cons t init => exact ⟨init, (List.cons.inj eq).2⟩

theorem callResult_eq {callee : String} {rest : List Token}
    (noFactorial : (Token.openBracket :: rest).getLast? ≠ some .bang) :
    callResult c env callee (.openBracket :: rest) =
      (Reader.primary (.identifier callee :: .openBracket :: rest)).eval c env := by
  unfold callResult
  split
  · rfl
  · next unclosed =>
    have shape :
        Reader.Shape.ofTokens (.identifier callee :: .openBracket :: rest) = .unclosed := by
      unfold Reader.Shape.ofTokens
      split <;> simp_all
    rw [Reader.primary_of_unclosed shape, Expr.eval, Flaw.failure]

theorem primary_eq (answers : Answers c env enter (7 * ts.length)) :
    primary c env enter ts = ofResult ((Reader.primary ts).eval c env) := by
  unfold primary
  split
  · next nothing =>
    obtain rfl := List.getLast?_eq_none_iff.mp nothing
    have shape : Reader.Shape.ofTokens [] = .atom := rfl
    rw [Reader.primary_of_atom shape, Reader.atom, Expr.eval, Flaw.failure, ofResult_error]
  · next closed =>
    obtain ⟨operand, rfl⟩ := List.getLast?_eq_some_iff.mp closed
    have shape := Reader.Shape.ofTokens_factorial operand
    have value := answers (.primary operand)
      (by simp only [Activation.rank, List.length_append, List.length_cons]; omega)
    rw [Reader.primary_of_factorial shape, Expr.eval, List.dropLast_concat, value, ofResult_bind,
      Activation.result]
  · next rest closed =>
    obtain ⟨inner, rfl⟩ := exists_inner closed (by decide)
    have shape := Reader.Shape.ofTokens_group inner
    have value := answers (.expression inner)
      (by simp only [Activation.rank, List.length_append, List.length_cons]; omega)
    rw [Reader.primary_of_group shape, Expr.eval, List.dropLast_concat, value, Activation.result]
  · next rest _ _ _ =>
    have shape : Reader.Shape.ofTokens (.openParen :: rest) = .unclosed := by
      unfold Reader.Shape.ofTokens
      split <;> simp_all
    rw [Reader.primary_of_unclosed shape, Expr.eval, Flaw.failure, ofResult_error]
  · next callee rest _ noFactorial =>
    have value := answers (.call callee (.openBracket :: rest))
      (by simp only [Activation.rank, List.length_cons]; omega)
    rw [value, Activation.result, callResult_eq noFactorial]
  · rw [Reader.primary_of_atom]
    unfold Reader.Shape.ofTokens
    split <;> simp_all

theorem call_eq {callee : String} {bracketed : List Token}
    (answers : Answers c env enter (7 * bracketed.length + 6)) :
    call c enter callee bracketed = ofResult (callResult c env callee bracketed) := by
  unfold call callResult
  split
  · next rest closed =>
    obtain ⟨inner, rfl⟩ := exists_inner closed (by decide)
    have shape := Reader.Shape.ofTokens_call callee inner
    have value := answers (.arguments inner)
      (by simp only [Activation.rank, List.length_append, List.length_cons]; omega)
    rw [List.dropLast_concat, Reader.primary_of_call shape, Expr.eval, ofResult_bind]
    cases inner with
    | nil => rfl
    | cons t inner =>
      simp only [List.isEmpty_cons, Bool.false_eq_true, if_false, value, Activation.result]
  · rfl

theorem evalAll_concat (c : Calculator) (env : Environment) (es : List Expr) (e : Expr) :
    Expr.evalAll c env (es ++ [e]) = do
      let xs ← Expr.evalAll c env es
      let x ← e.eval c env
      return xs ++ [x] := by
  induction es with
  | nil =>
      simp only [List.nil_append, Expr.evalAll]
      rfl
  | cons first es ih => simp [Expr.evalAll, ih]

theorem arguments_eq (answers : Answers c env enter (7 * ts.length + 5)) :
    arguments enter ts = ofResult (Expr.evalAll c env (Reader.arguments ts)) := by
  refine cut_bind (fun refused => ?_) (fun whole => ?_) fun s parts => ?_
  · rw [Reader.arguments_of_error refused]
    rfl
  · have value := answers (.expression ts) (Nat.le_refl _)
    simp only [Reader.arguments_of_none whole, value, Activation.result, Expr.evalAll,
      ofResult_bind, ofResult_pure]
    rfl
  · have before := length_before_lt parts
    have after := length_after_lt parts
    simp only [answers (.arguments s.before) (by simp only [Activation.rank]; omega),
      answers (.expression s.after) (by simp only [Activation.rank]; omega), Activation.result,
      Reader.arguments_of_some parts, evalAll_concat, ofResult_bind, ofResult_pure]

/-- One step: a call returns what it should if the calls inside of it do. -/
theorem body_eq {room : Nat} (answers : Answers c env enter room) (a : Activation α)
    (within : a.rank ≤ room + 1) : a.body c env enter = ofResult (a.result c env) := by
  have below {n : Nat} (h : n ≤ room) : Answers c env enter n :=
    fun b small => answers b (Nat.le_trans small h)
  cases a with
  | expression ts => exact expression_eq (below (Nat.le_of_succ_le_succ within))
  | term ts => exact term_eq (below (Nat.le_of_succ_le_succ within))
  | unary ts => exact unary_eq (below (Nat.le_of_succ_le_succ within))
  | power ts => exact power_eq (below (Nat.le_of_succ_le_succ within))
  | primary ts => exact primary_eq (below (Nat.le_of_succ_le_succ within))
  | call callee bracketed => exact call_eq (below (Nat.le_of_succ_le_succ within))
  | arguments ts => exact arguments_eq (below (Nat.le_of_succ_le_succ within))

/-- Every call that there is room for stays inside of its range, and the chains of calls in it are
no longer than its rank. -/
theorem answers_run (c : Calculator) (env : Environment) (room : Nat) :
    Answers c env (Activation.run c env room) room := by
  induction room with
  | zero =>
      -- no call has the rank 0
      intro α a small
      cases a <;> simp [Activation.rank] at small
  | succ room ih => exact fun a within => body_eq ih a within

/-- Each of the levels that `_` goes through is a call. -/
example (c : Calculator) (env : Environment) :
    Activation.run c env 4 (.expression [.previous]) = .error .tooDeep ∧
      Activation.run c env 5 (.expression [.previous]) = .ok env.previous :=
  ⟨rfl, rfl⟩

end Step

end Guarded

end Reckoner
