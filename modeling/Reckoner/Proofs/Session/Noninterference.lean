import Reckoner.Proofs.Grammar.Mention
import Reckoner.Proofs.Session.Result

/-!
# A statement depends on what it mentions

Two calculators with their environments agree on a list of tokens if they give the names in it the
same meaning, each in the part that it plays there, and `_` the same value if it occurs. Then the
list comes to the same with either of them. Variables and functions are apart: neither is looked up
where the other is, so a name may be both.
-/

namespace Reckoner

/-- Two calculators with their environments mean the same by all that a list of tokens mentions. -/
structure Agree (ts : List Token) (c c' : Calculator) (env env' : Environment) : Prop where
  constants : ∀ name, BareIn name ts → c.constants.get? name = c'.constants.get? name
  bindings : ∀ name, BareIn name ts → env.bindings.get? name = env'.bindings.get? name
  functions : ∀ name, CalledIn name ts → c.functions.get? name = c'.functions.get? name
  previous : .previous ∈ ts → env.previous = env'.previous

/-- A statement has the same value with both calculators, or the same failure, and changes both
environments in the same way. -/
def SameRun (ts : List Token) (c c' : Calculator) (env env' : Environment) : Prop :=
  (∃ failure, (c.statement ts).run env = .error failure env ∧
    (c'.statement ts).run env' = .error failure env') ∨
  ∃ x, (c.statement ts).run env = .ok x (env.after ts x) ∧
    (c'.statement ts).run env' = .ok x (env'.after ts x)

/-- The mention has the same meaning with both calculators and their environments. -/
def Mention.Same (c c' : Calculator) (env env' : Environment) : Mention → Prop
  | bare name => c.lookup env name = c'.lookup env' name
  | callee name => ∀ args, c.functions.call name args = c'.functions.call name args
  | previous => env.previous = env'.previous
  | flaw _ => True

namespace Expr

variable {c c' : Calculator} {env env' : Environment}

mutual

/-- Evaluation sees no more than the expression mentions. -/
theorem eval_congr : (e : Expr) → (∀ m ∈ e.mentions, m.Same c c' env env') →
    e.eval c env = e.eval c' env'
  | .number _, _ => rfl
  | .named _, same => same _ (List.mem_singleton_self _)
  | .previous, same => congrArg Except.ok (same _ (List.mem_singleton_self _))
  | .group inner, same => inner.eval_congr same
  | .call callee args, same => by
      obtain ⟨called, inArgs⟩ := List.forall_mem_cons.mp same
      have answer : ∀ values, c.functions.call callee values = c'.functions.call callee values :=
        called
      simp only [eval, evalAll_congr args inArgs, answer]
  | .factorial operand, same => by
      simp only [eval, operand.eval_congr same]
  | .signed _ operand, same => by
      simp only [eval, operand.eval_congr same]
  | .binary op left right, same => by
      obtain ⟨inLeft, inRight⟩ := List.forall_mem_append.mp same
      simp only [eval, left.eval_congr inLeft, right.eval_congr inRight]
  | .flaw _, _ => rfl

theorem evalAll_congr : (es : List Expr) → (∀ m ∈ mentionsOfAll es, m.Same c c' env env') →
    evalAll c env es = evalAll c' env' es
  | [], _ => rfl
  | e :: es, same => by
      obtain ⟨inHead, inTail⟩ := List.forall_mem_append.mp same
      simp only [evalAll, e.eval_congr inHead, evalAll_congr es inTail]

end

end Expr

namespace Agree

variable {ts : List Token} {c c' : Calculator} {env env' : Environment} {name : String}

theorem contains_constant_eq (agree : Agree ts c c' env env') (bare : BareIn name ts) :
    c.constants.contains name = c'.constants.contains name := by
  rw [Table.contains, Table.contains, agree.constants name bare]

theorem contains_variable_eq (agree : Agree ts c c' env env') (bare : BareIn name ts) :
    env.bindings.contains name = env'.bindings.contains name := by
  rw [Table.contains, Table.contains, agree.bindings name bare]

theorem same {m : Mention} (agree : Agree ts c c' env env') (inside : m.In ts) :
    m.Same c c' env env' := by
  cases m with
  | bare name =>
      simp only [Mention.Same, Calculator.lookup, agree.constants name inside,
        agree.bindings name inside]
  | callee name => simp only [Mention.Same, Library.call, agree.functions name inside, implies_true]
  | previous => exact agree.previous inside
  | flaw why => trivial

theorem eval_eq (agree : Agree ts c c' env env') (e : Expr) (inside : ∀ m ∈ e.mentions, m.In ts) :
    e.eval c env = e.eval c' env' :=
  e.eval_congr fun m member => agree.same (inside m member)

theorem result_eq (agree : Agree ts c c' env env') : c.result env ts = c'.result env' ts := by
  rw [Calculator.result, Calculator.result]
  cases made : Statement.ofTokens ts with
  | fault why => rfl
  | expression e => exact agree.eval_eq e (Grammar.in_of_expression made)
  | declaration name e =>
      have bare := Grammar.bareIn_of_declaration made
      have value := agree.eval_eq e (Grammar.in_of_declaration made)
      simp only [agree.contains_constant_eq bare, value, agree.contains_variable_eq bare]

theorem sameRun (agree : Agree ts c c' env env') : SameRun ts c c' env env' := by
  rw [SameRun, Calculator.run_statement, Calculator.run_statement, agree.result_eq]
  cases c'.result env' ts with
  | error failure => exact .inl ⟨failure, rfl, rfl⟩
  | ok x => exact .inr ⟨x, rfl, rfl⟩

/-- Binding a name changes nothing for a list that does not look the name up as a variable. -/
theorem insert_variable (c : Calculator) (env : Environment) (unread : ¬ BareIn name ts)
    (value : Float) :
    Agree ts c c env { env with bindings := env.bindings.insert name value } where
  constants _ _ := rfl
  bindings other bare := by
    have ne : other ≠ name := by
      rintro rfl
      exact unread bare
    exact (Table.get?_insert_of_ne _ value ne).symm
  functions _ _ := rfl
  previous _ := rfl

/-- Registering a function changes nothing for a list that does not call it. -/
theorem insert_function (c : Calculator) (env : Environment) (uncalled : ¬ CalledIn name ts)
    (f : Callable) :
    Agree ts c { c with functions := c.functions.insert name f } env env where
  constants _ _ := rfl
  bindings _ _ := rfl
  functions other called := by
    have ne : other ≠ name := by
      rintro rfl
      exact uncalled called
    exact (Table.get?_insert_of_ne _ f ne).symm
  previous _ := rfl

end Agree

/-- A statement sees only the names that it mentions. Where two calculators and their environments
agree on these, it comes to the same and makes the same change. So a variable has no influence on
a statement that only calls a function of its name, and a function none on one that only reads
the variable. -/
theorem sees_only_mentioned (ts : List Token) (c : Calculator) (env : Environment) :
    (∀ c' env', Agree ts c c' env env' → SameRun ts c c' env env') ∧
    (∀ name value, ¬ BareIn name ts →
      SameRun ts c c env { env with bindings := env.bindings.insert name value }) ∧
    ∀ name f, ¬ CalledIn name ts →
      SameRun ts c { c with functions := c.functions.insert name f } env env := by
  refine ⟨fun _ _ agree => agree.sameRun, ?_, ?_⟩
  · intro name value unread
    exact (Agree.insert_variable c env unread value).sameRun
  · intro name f uncalled
    exact (Agree.insert_function c env uncalled f).sameRun

/-- A call of `abs` with `x`, where `abs` is also a variable and `x` also a function. -/
theorem sees_only_mentioned_abs :
    let ts : List Token := [.identifier "abs", .openBracket, .identifier "x", .closeBracket]
    let c : Calculator := {}
    let c' := { c with functions := c.functions.insert "x" ⟨.any, fun _ => .ok 0⟩ }
    let env : Environment := { bindings := .ofList [("x", 2)] }
    let env' : Environment := { bindings := .ofList [("abs", 7), ("x", 2)], previous := 3 }
    Agree ts c c' env env' ∧ SameRun ts c c' env env' ∧ ¬ BareIn "abs" ts ∧ ¬ CalledIn "x" ts ∧
      SameRun ts c c env { env with bindings := env.bindings.insert "abs" 7 } ∧
      SameRun ts c c' env env := by
  intro ts c c' env env'
  have bare : ∀ name, BareIn name ts ↔ name = "x" := by simp [ts, bareIn_cons, eq_comm]
  have called : ∀ name, CalledIn name ts ↔ name = "abs" := by simp [ts, calledIn_cons, eq_comm]
  have agree : Agree ts c c' env env' := by
    constructor
    case constants => exact fun _ _ => rfl
    case bindings =>
      intro name inside
      obtain rfl := (bare name).mp inside
      rfl
    case functions =>
      intro name inside
      obtain rfl := (called name).mp inside
      exact (Table.get?_insert_of_ne _ _ (by decide)).symm
    case previous =>
      intro inside
      simp [ts] at inside
  have unread : ¬ BareIn "abs" ts := by rw [bare]; decide
  have uncalled : ¬ CalledIn "x" ts := by rw [called]; decide
  obtain ⟨general, ofVariable, ofFunction⟩ := sees_only_mentioned ts c env
  exact ⟨agree, general c' env' agree, unread, uncalled, ofVariable "abs" 7 unread,
    ofFunction "x" _ uncalled⟩

end Reckoner
