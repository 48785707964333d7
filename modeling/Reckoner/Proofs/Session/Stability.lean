import Reckoner.Proofs.Grammar.Sentence
import Reckoner.Proofs.Session.Step
import Reckoner.Proofs.Table

/-!
# Results that stay

A session adds bindings and changes none, and no success of an expression depends on a name being
free. So an expression without `_` that has a value keeps it for the rest of a session.
-/

namespace Reckoner

/-- The second result is the first one where that is a success. -/
def Persists {α : Type} (first second : Except Failure α) : Prop :=
  ∀ x, first = .ok x → second = .ok x

namespace Persists

variable {α β : Type} {x y : Except Failure α} {f g : α → Except Failure β}

protected theorem refl (x : Except Failure α) : Persists x x :=
  fun _ h => h

theorem bind (hx : Persists x y) (hf : ∀ a, Persists (f a) (g a)) :
    Persists (x >>= f) (y >>= g) := by
  intro b h
  obtain ⟨a, eq, h⟩ := Failure.bind_eq_ok.mp h
  exact Failure.bind_eq_ok.mpr ⟨a, hx a eq, hf a b h⟩

theorem ite {p : Prop} [Decidable p] {x' y' : Except Failure α} (hx : Persists x y)
    (hx' : Persists x' y') : Persists (if p then x else x') (if p then y else y') := by
  split
  · exact hx
  · exact hx'

end Persists

namespace Step.Effect

variable {c : Calculator} {step : Step} {env after : Environment} {answer : Answer}

theorem le (h : step.Effect c env answer after) : env.bindings.Le after.bindings := by
  cases h with
  | failed failure => exact .refl _
  | bound defines free => exact Table.le_insert free _
  | valued declares => exact .refl _
  | declared declares constant free => exact Table.le_insert free _

end Step.Effect

/-- A session keeps the bindings that it finds. -/
theorem Calculator.le_session (c : Calculator) (env : Environment) (steps : List Step) :
    env.bindings.Le (c.session env steps).2.bindings := by
  induction steps generalizing env with
  | nil => exact .refl _
  | cons step steps ih => exact (step.effect c env).le.trans (ih (step.run c env).2)

namespace Grammar

variable {l : Level} {c : Calculator} {env later : Environment}

namespace Tree

theorem persists_evalAll {args : List (Tree .expression)}
    (h : ∀ arg ∈ args, Persists (arg.eval c env) (arg.eval c later)) :
    Persists (evalAll c env args) (evalAll c later args) := by
  induction args with
  | nil => exact .refl _
  | cons arg args ih =>
      obtain ⟨head, tail⟩ := List.forall_mem_cons.mp h
      exact head.bind fun _ => (ih tail).bind fun _ => .refl _

/-- What a joined range lacks, both of its sides lack. -/
theorem notMem_join {xs ys : List Token} {t op : Token} (absent : t ∉ xs ++ op :: ys) :
    t ∉ xs ∧ t ∉ ys := by
  constructor
  · intro member
    exact absent (List.mem_append_left _ member)
  · intro member
    exact absent (List.mem_append_right _ (.tail _ member))

/-- A tree without `_` keeps its value in an environment with more bindings. -/
theorem persists_eval (grown : env.bindings.Le later.bindings) (t : Tree l)
    (absent : .previous ∉ t.tokens) : Persists (t.eval c env) (t.eval c later) := by
  induction t with
  | sum left op right ihl ihr =>
      obtain ⟨before, behind⟩ := notMem_join absent
      have left := ihl before
      have right := ihr behind
      cases op <;> exact left.bind fun _ => right.bind fun _ => .refl _
  | ofTerm t ih => exact ih absent
  | product left op right ihl ihr =>
      obtain ⟨before, behind⟩ := notMem_join absent
      have left := ihl before
      have right := ihr behind
      cases op with
      | star => exact left.bind fun _ => right.bind fun _ => .refl _
      -- The right operand keeps its value first, and with it the answer to whether it is zero.
      | slash =>
          refine right.bind fun divisor => ?_
          have quotient := left.bind fun dividend => .refl (.ok (dividend / divisor))
          exact .ite (.bind (.refl _) fun _ => quotient) quotient
      | percent =>
          refine right.bind fun divisor => ?_
          have rest := left.bind fun dividend => .refl (.ok (Binary64.remainder dividend divisor))
          exact .ite (.bind (.refl _) fun _ => rest) rest
  | ofUnary t ih => exact ih absent
  | signed signs operand ih =>
      have operand := ih fun member => absent (List.mem_append_right _ member)
      exact operand.bind fun _ => .refl _
  | power base exponent ihb ihe =>
      obtain ⟨before, behind⟩ := notMem_join absent
      exact (ihb before).bind fun _ => (ihe behind).bind fun _ => .refl _
  | ofPrimary t ih => exact ih absent
  | group inner ih =>
      exact ih fun member => absent (.tail _ (List.mem_append_left _ member))
  | call callee args ih =>
      have persists : ∀ arg ∈ args, Persists (arg.eval c env) (arg.eval c later) := by
        intro arg inside
        apply ih arg inside
        intro member
        exact absent (.tail _ (.tail _ (List.mem_append_left _ (mem_arguments inside member))))
      exact (persists_evalAll persists).bind fun _ => .refl _
  | named name =>
      intro x h
      simp only [eval] at h ⊢
      cases constant : c.constants.get? name with
      | some value => simpa only [constant] using h
      | none =>
          cases bound : env.bindings.get? name with
          | none =>
              rw [constant, bound] at h
              cases h
          | some value => simpa only [constant, bound, grown name value bound] using h
  | previous => exact absurd (List.mem_singleton_self _) absent
  | number value => exact .refl _
  | factorial operand ih =>
      have operand := ih fun member => absent (List.mem_append_left _ member)
      exact operand.bind fun _ => .refl _

end Tree

variable {after : Environment} {ts : List Token} {x : Float}

theorem Sentence.run_expression_eq_ok {e : Tree .expression} :
    (Sentence.expression e).run c env = .ok x after ↔
      e.eval c env = .ok x ∧ after = { env with previous := x } := by
  rw [← perform_statement, statement, Calculator.run_expression_eq_ok, e.eval_expr]

theorem exists_expression_of_tokens {s : Sentence} (h : s.tokens.head? ≠ some .letKeyword) :
    ∃ e, s = .expression e := by
  cases s with
  | declaration name value => exact absurd rfl h
  | expression e => exact ⟨e, rfl⟩

/-- An expression without `_` that had a value has it again once there are more bindings. -/
theorem run_of_le (expression : ts.head? ≠ some .letKeyword) (absent : .previous ∉ ts)
    (h : (c.statement ts).run env = .ok x after) (grown : after.bindings.Le later.bindings) :
    (c.statement ts).run later = .ok x { later with previous := x } := by
  obtain ⟨s, rfl, run⟩ := statement_eq_ok_iff.mp h
  obtain ⟨e, rfl⟩ := exists_expression_of_tokens expression
  obtain ⟨value, rfl⟩ := Sentence.run_expression_eq_ok.mp run
  have bindings : env.bindings.Le later.bindings := grown
  have again : e.eval c later = .ok x := e.persists_eval bindings absent x value
  exact statement_eq_ok_iff.mpr ⟨.expression e, rfl, Sentence.run_expression_eq_ok.mpr ⟨again, rfl⟩⟩

end Grammar

/-- The value of an expression without `_` is the same for the rest of a session, whether it is
given as tokens or as text. -/
theorem value_stays (c : Calculator) (env after : Environment) (x : Float) (steps : List Step) :
    let later := (c.session after steps).2
    (∀ ts, ts.head? ≠ some .letKeyword → .previous ∉ ts →
      (c.statement ts).run env = .ok x after →
      (c.statement ts).run later = .ok x { later with previous := x }) ∧
    ∀ source ts, tokenize source = .ok ts → ts.head? ≠ some .letKeyword → .previous ∉ ts →
      (c.evaluate source).run env = .ok x after →
      (c.evaluate source).run later = .ok x { later with previous := x } := by
  intro later
  have grown : after.bindings.Le later.bindings := c.le_session after steps
  constructor
  · intro ts expression absent h
    exact Grammar.run_of_le expression absent h grown
  · intro source ts read expression absent h
    obtain ⟨found, eq, h⟩ := Calculator.run_evaluate_eq_ok.mp h
    obtain rfl := Except.ok.inj (eq.symm.trans read)
    have again := Grammar.run_of_le expression absent h grown
    exact Calculator.run_evaluate_eq_ok.mpr ⟨_, read, again⟩

theorem value_stays_of_variable :
    let c : Calculator := {}
    let before : Environment := { bindings := .ofList [("x", 2)] }
    let later := (c.session { before with previous := 2 } [.define "y" 3, .define "x" 4]).2
    (c.evaluate "x").run before = .ok 2 { before with previous := 2 } ∧
      (c.evaluate "x").run later = .ok 2 { later with previous := 2 } := by
  intro c before later
  have read : tokenize "x" = .ok [.identifier "x"] := Failure.eq_ok_of_toOption (by decide +kernel)
  have first : (c.statement [.identifier "x"]).run before = .ok 2 { before with previous := 2 } :=
    Grammar.statement_eq_ok_iff.mpr
      ⟨.expression (.ofTerm (.ofUnary (.signed [] (.ofPrimary (.named "x"))))), rfl, rfl⟩
  have text := Calculator.run_evaluate_eq_ok.mpr ⟨_, read, first⟩
  exact ⟨text, (value_stays c before _ 2 _).2 "x" _ read nofun (by simp) text⟩

end Reckoner
