import Reckoner.Proofs.Grammar.Reading
import Reckoner.Proofs.Session.Step
import Reckoner.Proofs.Table

/-!
# The history of a session

What a session leaves is told by its steps and the answers to them: the variables by the bindings
made, `_` by the last value, and nothing by the steps that failed. `Account` says that an
environment is the one that a history tells; each step preserves it, hence every session does.
-/

namespace Reckoner

/-- The steps of a session with their answers, the earliest first. -/
abbrev History := List (Step × Answer)

/-- The value of an answer. A binding has none. -/
def Answer.value? : Answer → Option Float
  | .ok value => value
  | .error _ => none

namespace History

/-- The bindings that were made, by declarations and directly. -/
def bindings (h : History) : List (String × Float) :=
  h.filterMap fun entry => entry.1.binding? entry.2

/-- The value of the last step that had one, and `0` if there was none. -/
def latest (h : History) : Float :=
  (h.filterMap fun entry => entry.2.value?).getLastD 0

/-- The names that were bound directly, or that this was tried for. -/
def defines (h : History) (name : String) : Prop :=
  ∃ value answer, (Step.define name value, answer) ∈ h

variable (h : History) (step : Step) (answer : Answer)

@[simp] theorem bindings_concat :
    bindings (h ++ [(step, answer)]) = h.bindings ++ (step.binding? answer).toList := by
  simp only [bindings, List.filterMap_append, List.filterMap_cons, List.filterMap_nil]
  cases step.binding? answer <;> rfl

@[simp] theorem latest_concat :
    latest (h ++ [(step, answer)]) = answer.value?.getD h.latest := by
  simp only [latest, List.filterMap_append, List.filterMap_cons, List.filterMap_nil]
  cases answer.value? <;> simp

theorem defines_concat {name : String} (before : h.defines name) :
    defines (h ++ [(step, answer)]) name := by
  obtain ⟨value, given, member⟩ := before
  exact ⟨value, given, List.mem_append_left _ member⟩

end History

/-- An environment is the one that a history tells. -/
structure Account (c : Calculator) (h : History) (env : Environment) : Prop where
  records : env.bindings.Records h.bindings
  previous : env.previous = h.latest
  constants : ∀ name, env.bindings.contains name = true → c.constants.contains name = true →
    h.defines name

namespace Account

variable {c : Calculator} {h : History} {env after : Environment} {step : Step} {answer : Answer}

theorem start (c : Calculator) : Account c [] {} where
  records := Table.records_empty
  previous := rfl
  constants _ bound _ := by cases bound

theorem defines_of_insert (told : Account c h env) {name : String} {value : Float}
    (here : c.constants.contains name = true → History.defines (h ++ [(step, answer)]) name)
    (other : String) (bound : (env.bindings.insert name value).contains other = true)
    (constant : c.constants.contains other = true) :
    History.defines (h ++ [(step, answer)]) other := by
  by_cases same : other = name
  · subst same
    exact here constant
  · rw [Table.contains_insert_of_ne _ _ same] at bound
    exact h.defines_concat step answer (told.constants other bound constant)

/-- A step of any effect keeps the account. -/
theorem concat (told : Account c h env) (effect : step.Effect c env answer after) :
    Account c (h ++ [(step, answer)]) after := by
  cases effect with
  | failed failure =>
      constructor
      case records => simpa using told.records
      case previous =>
        rw [History.latest_concat]
        exact told.previous
      case constants =>
        intro name bound constant
        exact h.defines_concat _ _ (told.constants name bound constant)
  | @bound name value defines free =>
      subst defines
      constructor
      case records =>
        rw [History.bindings_concat]
        exact told.records.insert free value
      case previous =>
        rw [History.latest_concat]
        exact told.previous
      case constants =>
        apply told.defines_of_insert
        intro _
        exact ⟨value, .ok none, by simp⟩
  | @valued x declares =>
      constructor
      case records =>
        rw [History.bindings_concat, declares]
        simpa using told.records
      case previous =>
        rw [History.latest_concat]
        rfl
      case constants =>
        intro name bound constant
        exact h.defines_concat _ _ (told.constants name bound constant)
  | @declared name x declares constant free =>
      constructor
      case records =>
        rw [History.bindings_concat, declares]
        exact told.records.insert free x
      case previous =>
        rw [History.latest_concat]
        rfl
      case constants =>
        -- A declaration refuses the name of a constant, so only an older variable can have it.
        apply told.defines_of_insert
        intro reserved
        rw [constant] at reserved
        cases reserved

/-- A session keeps the account. -/
theorem session (told : Account c h env) (steps : List Step) :
    Account c (h ++ steps.zip (c.session env steps).1) (c.session env steps).2 := by
  induction steps generalizing h env with
  | nil => simpa [Calculator.session] using told
  | cons step steps ih =>
      have next := ih (told.concat (step.effect c env))
      simpa [Calculator.session] using next

end Account

namespace Calculator

variable (c : Calculator) (env : Environment)

theorem length_session (steps : List Step) : (c.session env steps).1.length = steps.length := by
  induction steps generalizing env with
  | nil => rfl
  | cons step steps ih => simp [session, ih]

/-- A session can be interrupted: the rest goes on in the environment that the first part left. -/
theorem session_append (first rest : List Step) :
    c.session env (first ++ rest) =
      ((c.session env first).1 ++ (c.session (c.session env first).2 rest).1,
        (c.session (c.session env first).2 rest).2) := by
  induction first generalizing env with
  | nil => rfl
  | cons step first ih => simp [session, ih]

end Calculator

theorem History.mem_of_defines {steps : List Step} {answers : List Answer} {name : String}
    (h : History.defines (steps.zip answers) name) : ∃ value, .define name value ∈ steps := by
  obtain ⟨value, _, member⟩ := h
  exact ⟨value, (List.of_mem_zip member).1⟩

/-- What holds after any steps: the variables are the bindings made, each of a name of its own; `_`
is the last value; one more step that fails changes nothing; and a variable has the name of a
constant only if it was bound directly. -/
theorem session_account (c : Calculator) (steps : List Step) :
    let answers := (c.session {} steps).1
    let env := (c.session {} steps).2
    let history : History := steps.zip answers
    answers.length = steps.length ∧
    (∀ name value, env.bindings.get? name = some value ↔ (name, value) ∈ history.bindings) ∧
    (history.bindings.map Prod.fst).Nodup ∧
    env.previous = history.latest ∧
    (∀ step failure, (step.run c env).1 = .error failure →
      (c.session {} (steps ++ [step])).2 = env) ∧
    ((∀ name value, .define name value ∈ steps → c.constants.contains name = false) →
      ∀ name, env.bindings.contains name = true → c.constants.contains name = false) := by
  intro answers env history
  have told : Account c history env := (Account.start c).session steps
  refine ⟨c.length_session {} steps, told.records.get?_iff, told.records.nodup, told.previous,
    ?_, ?_⟩
  · intro step failure failed
    rw [c.session_append]
    exact Step.env_of_error failed
  · intro undefined name bound
    apply eq_false_of_ne_true
    intro constant
    obtain ⟨value, member⟩ := History.mem_of_defines (told.constants name bound constant)
    rw [undefined name value member] at constant
    cases constant

/-- A declaration and a direct binding, and then a second declaration of the first name, which fails
after its value is known. -/
theorem session_account_defined_twice :
    let c : Calculator := {}
    let steps : List Step := [.source "let x = 2", .define "y" 5]
    let left := (c.session {} steps).2
    left.bindings.get? "x" = some 2 ∧ left.bindings.get? "y" = some 5 ∧ left.previous = 2 ∧
      (c.session {} (steps ++ [.source "let x = 3"])).2 = left ∧
      c.constants.contains "x" = false := by
  intro c steps left
  let two : Grammar.Tree .expression := .ofTerm (.ofUnary (.signed [] (.ofPrimary (.number 2))))
  let three : Grammar.Tree .expression := .ofTerm (.ofUnary (.signed [] (.ofPrimary (.number 3))))
  let declared : Environment := { bindings := .ofList [("x", 2)], previous := 2 }
  have read : tokenize "let x = 2" = .ok (Grammar.Sentence.declaration "x" two).tokens :=
    Failure.eq_ok_of_toOption (by decide +kernel)
  have read' : tokenize "let x = 3" = .ok (Grammar.Sentence.declaration "x" three).tokens :=
    Failure.eq_ok_of_toOption (by decide +kernel)
  have first : (Step.source "let x = 2").run c {} = (.ok (some 2), declared) := by
    rw [Step.run_source, Grammar.Sentence.run_evaluate read]
    rfl
  have session : c.session {} steps = ([.ok (some 2), .ok none],
      { declared with bindings := declared.bindings.insert "y" 5 }) := by
    rw [Calculator.session, first]
    rfl
  have second : ((Step.source "let x = 3").run c left).1 = .error (.redeclared "x") := by
    rw [Step.run_source, Grammar.Sentence.run_evaluate read',
      show left = _ from congrArg Prod.snd session]
    rfl
  have made : History.bindings (steps.zip (c.session {} steps).1) = [("x", 2), ("y", 5)] := by
    rw [session]
    simp [steps, History.bindings, Step.binding?, Step.declaredName?, read,
      Grammar.Sentence.tokens, Statement.declaredName?]
  have latest : History.latest (steps.zip (c.session {} steps).1) = 2 := by
    rw [session]
    rfl
  have free : ∀ name value, .define name value ∈ steps → c.constants.contains name = false := by
    intro name value member
    obtain ⟨rfl, _⟩ : name = "y" ∧ value = 5 := by simpa [steps] using member
    decide +kernel
  obtain ⟨_, bindings, _, previous, refused, apart⟩ := session_account c steps
  rw [made] at bindings
  have bound := (bindings "x" 2).mpr (by simp)
  refine ⟨bound, (bindings "y" 5).mpr (by simp), previous.trans latest, refused _ _ second, ?_⟩
  exact apart free "x" (by rw [Table.contains, bound]; rfl)

end Reckoner
