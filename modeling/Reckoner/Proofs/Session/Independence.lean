import Reckoner.Proofs.Session.History
import Reckoner.Proofs.Session.Noninterference

/-!
# Statements in either order

A statement leaves no more behind than its declared name and `_`. If another one mentions neither,
it cannot tell whether the first was carried out before it, and whether that one failed. When this
holds in both directions, the two can be exchanged: the answers and the variables stay the same,
and only `_` tells which of them came last.
-/

namespace Reckoner

variable {c : Calculator} {env : Environment} {a b : List Token}

theorem bareIn_of_declaredName? {name : String} (h : Statement.declaredName? a = some name) :
    BareIn name a := by
  unfold Statement.declaredName? at h
  split at h
  · next declared rest =>
    obtain rfl := Option.some.inj h
    exact ⟨[.letKeyword], .equals :: rest, rfl, nofun⟩
  · cases h

/-- A statement that mentions neither `_` nor the name that another one declares means the same
before the other and after it. -/
theorem Agree.afterResult (plain : .previous ∉ b)
    (apart : ∀ name, Statement.declaredName? a = some name → ¬ BareIn name b)
    (result : Except Failure Float) : Agree b c c env (env.afterResult a result) where
  constants _ _ := rfl
  bindings name bare := by
    cases result with
    | error failure => rfl
    | ok x =>
        have undeclared : Statement.declaredName? a ≠ some name :=
          fun declared => apart name declared bare
        exact (env.get?_after_of_ne a x undeclared).symm
  functions _ _ := rfl
  previous member := absurd member plain

/-- Two declarations of different names bind the same, whichever comes first. -/
theorem Environment.get?_after_comm (x y : Float)
    (apart : ∀ name, Statement.declaredName? a = some name → ¬ BareIn name b) (name : String) :
    ((env.after a x).after b y).bindings.get? name =
      ((env.after b y).after a x).bindings.get? name := by
  by_cases declaredA : Statement.declaredName? a = some name
  · have undeclaredB : Statement.declaredName? b ≠ some name :=
      fun declaredB => apart name declaredA (bareIn_of_declaredName? declaredB)
    rw [get?_after_of_ne _ b y undeclaredB, get?_after_of_declared _ a x declaredA,
      get?_after_of_declared _ a x declaredA]
  · rw [get?_after_of_ne _ a x declaredA]
    by_cases declaredB : Statement.declaredName? b = some name
    · rw [get?_after_of_declared _ b y declaredB, get?_after_of_declared _ b y declaredB]
    · rw [get?_after_of_ne _ b y declaredB, get?_after_of_ne _ b y declaredB,
        get?_after_of_ne _ a x declaredA]

theorem Environment.get?_afterResult_comm (r r' : Except Failure Float)
    (apart : ∀ name, Statement.declaredName? a = some name → ¬ BareIn name b) (name : String) :
    ((env.afterResult a r).afterResult b r').bindings.get? name =
      ((env.afterResult b r').afterResult a r).bindings.get? name := by
  cases r with
  | error failure => rfl
  | ok x =>
      cases r' with
      | error failure => rfl
      | ok y => exact get?_after_comm x y apart name

theorem Environment.previous_afterResult (env : Environment) (ts : List Token)
    (r : Except Failure Float) :
    (env.afterResult ts r).previous = (Answer.value? (r.map some)).getD env.previous := by
  cases r <;> rfl

/-- A statement followed by one that does not see what it left. -/
theorem session_pair (c : Calculator) (env : Environment) {A B : Step}
    (carriesA : A.Carries a) (carriesB : B.Carries b) (plain : .previous ∉ b)
    (apart : ∀ name, Statement.declaredName? a = some name → ¬ BareIn name b) :
    c.session env [A, B] =
      ([(c.result env a).map some, (c.result env b).map some],
        (env.afterResult a (c.result env a)).afterResult b (c.result env b)) := by
  have unseen : c.result (env.afterResult a (c.result env a)) b = c.result env b :=
    (Agree.afterResult plain apart (c.result env a)).result_eq.symm
  simp only [Calculator.session, Step.run_of_carries carriesA, Step.run_of_carries carriesB, unseen]

/-- Two statements without `_`, neither of which mentions the name that the other declares except
as that of a function, can be carried out in either order. Each has the same answer, be it a value
or a failure, the variables are the same after both, and `_` is the value of the last one that
has a value. -/
theorem independent_statements_commute (c : Calculator) (env : Environment) {a b : List Token}
    {A B : Step} (carriesA : A.Carries a) (carriesB : B.Carries b) (plainA : .previous ∉ a)
    (plainB : .previous ∉ b)
    (apartA : ∀ name, Statement.declaredName? a = some name → ¬ BareIn name b)
    (apartB : ∀ name, Statement.declaredName? b = some name → ¬ BareIn name a) :
    ∃ (x y : Answer) (ab ba : Environment),
      c.session env [A, B] = ([x, y], ab) ∧ c.session env [B, A] = ([y, x], ba) ∧
      (∀ name, ab.bindings.get? name = ba.bindings.get? name) ∧
      ab.previous = y.value?.getD (x.value?.getD env.previous) ∧
      ba.previous = x.value?.getD (y.value?.getD env.previous) := by
  have inOrder := session_pair c env carriesA carriesB plainB apartA
  have swapped := session_pair c env carriesB carriesA plainA apartB
  refine ⟨_, _, _, _, inOrder, swapped, Environment.get?_afterResult_comm _ _ apartA, ?_, ?_⟩
  · rw [Environment.previous_afterResult, Environment.previous_afterResult]
  · rw [Environment.previous_afterResult, Environment.previous_afterResult]

/-- A declaration of the name of a function, and a call of the function in another declaration. -/
theorem independent_statements_commute_abs :
    let c : Calculator := {}
    let a : List Token := [.letKeyword, .identifier "abs", .equals, .number 2]
    let b : List Token := [.letKeyword, .identifier "y", .equals, .identifier "abs", .openBracket,
      .number 3, .closeBracket]
    tokenize "let abs = 2" = .ok a ∧
    (∀ name, Statement.declaredName? a = some name → ¬ BareIn name b) ∧
    (∀ name, Statement.declaredName? b = some name → ¬ BareIn name a) ∧
    ∃ (x y : Answer) (ab ba : Environment),
      c.session {} [.source "let abs = 2", .tokens b] = ([x, y], ab) ∧
      c.session {} [.tokens b, .source "let abs = 2"] = ([y, x], ba) ∧
      (∀ name, ab.bindings.get? name = ba.bindings.get? name) ∧
      ab.previous = y.value?.getD (x.value?.getD 0) ∧
      ba.previous = x.value?.getD (y.value?.getD 0) := by
  intro c a b
  have read : tokenize "let abs = 2" = .ok a := Failure.eq_ok_of_toOption (by decide +kernel)
  have apartA : ∀ name, Statement.declaredName? a = some name → ¬ BareIn name b := by
    intro name declared
    obtain rfl : "abs" = name := Option.some.inj declared
    simp [b, bareIn_cons]
  have apartB : ∀ name, Statement.declaredName? b = some name → ¬ BareIn name a := by
    intro name declared
    obtain rfl : "y" = name := Option.some.inj declared
    simp [a, bareIn_cons]
  exact ⟨read, apartA, apartB, independent_statements_commute c {} (.source read) .tokens
    (by simp [a]) (by simp [b]) apartA apartB⟩

end Reckoner
