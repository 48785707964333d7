import Reckoner.CommandLine.Run
import Reckoner.Proofs.Grammar.Reading
import Reckoner.Proofs.Numeral
import Reckoner.Proofs.Session.Step

/-!
# Runs over lines

A line is blank, or its statement fails, or it has a value. Lines of the first two kinds leave the
environment and standard output alone, so a run shows that they were there by the errors that it
prints for them and by nothing else. A line with a value is printed, unless it is to have more
places than there can be; then the run comes to no line behind it.
-/

namespace Reckoner.CommandLine

/-- A line without a statement. -/
def Blank (line : List Char) : Prop :=
  Text.trim line = []

instance (line : List Char) : Decidable (Blank line) :=
  inferInstanceAs (Decidable (Text.trim line = []))

/-- The statement of a line. -/
def statementOf (line : List Char) : String :=
  String.ofList (Text.trim line)

section Kinds

variable (c : Calculator) (env : Environment) (line : List Char)

/-- A line with a statement that fails in an environment. -/
def Failing : Prop :=
  ¬ Blank line ∧ ∃ failure after, (c.evaluate (statementOf line)).run env = .error failure after

/-- A line with a statement that has a value in an environment. -/
def Valued : Prop :=
  ¬ Blank line ∧ ∃ x after, (c.evaluate (statementOf line)).run env = .ok x after

instance : Decidable (Failing c env line) :=
  match run : (c.evaluate (statementOf line)).run env with
  | .error _ _ => decidable_of_iff (¬ Blank line) (by simp [Failing, run])
  | .ok _ _ => .isFalse (by simp [Failing, run])

instance : Decidable (Valued c env line) :=
  match run : (c.evaluate (statementOf line)).run env with
  | .ok _ _ => decidable_of_iff (¬ Blank line) (by simp [Valued, run])
  | .error _ _ => .isFalse (by simp [Valued, run])

/-- What standard output shows for a line. -/
def outOf (precision : Option Nat) : String :=
  (evaluateLines c precision env [line]).1.out

/-- What standard error shows for a line. -/
def errOf : String :=
  (evaluateLines c none env [line]).1.err

/-- The environment that a line leaves. -/
def envBehind : Environment :=
  (evaluateLines c none env [line]).2

end Kinds

/-- Values can be printed with a precision. -/
def Printable (precision : Option Nat) : Prop :=
  ∀ places ∈ precision, places ≤ 65535

instance (precision : Option Nat) : Decidable (Printable precision) :=
  inferInstanceAs (Decidable (∀ places ∈ precision, places ≤ 65535))

section Indices

variable (c : Calculator) (precision : Option Nat) (env : Environment) (lines : List (List Char))
  (i : Nat)

/-- The environment that a run has when it comes to the line of an index. -/
def envAt : Environment :=
  (evaluateLines c none env (lines.take i)).2

/-- The statement of the line of an index fails in a run. -/
def FailingAt : Prop :=
  ∃ line ∈ lines[i]?, Failing c (envAt c env lines i) line

/-- The statement of the line of an index has a value in a run. -/
def ValuedAt : Prop :=
  ∃ line ∈ lines[i]?, Valued c (envAt c env lines i) line

/-- A run comes to the line of an index. -/
def ReachedAt : Prop :=
  Printable precision ∨ ∀ j < i, ¬ ValuedAt c env lines j

instance : Decidable (FailingAt c env lines i) :=
  inferInstanceAs (Decidable (∃ line ∈ lines[i]?, Failing c (envAt c env lines i) line))

instance : Decidable (ValuedAt c env lines i) :=
  inferInstanceAs (Decidable (∃ line ∈ lines[i]?, Valued c (envAt c env lines i) line))

instance : Decidable (ReachedAt c precision env lines i) :=
  inferInstanceAs (Decidable (Printable precision ∨ ∀ j < i, ¬ ValuedAt c env lines j))

/-- What a run prints to standard error at the line of an index. -/
def errAt : String :=
  (evaluateLines c none (envAt c env lines i) lines[i]?.toList).1.err

end Indices

variable {c : Calculator} {precision : Option Nat} {env next : Environment} {x : Float}

theorem printable_none : Printable none :=
  nofun

theorem valueText?_eq_some_iff {text : String} : valueText? precision x = some text ↔
    Printable precision ∧ Numeral.Shows precision x text.toList := by
  cases precision with
  | none =>
      rw [valueText?, Option.some.injEq, Numeral.plain_eq_iff]
      exact (and_iff_right printable_none).symm
  | some places =>
      rw [valueText?, Numeral.fixed?_eq_some_iff]
      simp [Printable]

theorem valueText?_eq_none_iff : valueText? precision x = none ↔ ¬ Printable precision := by
  cases precision with
  | none => simp [valueText?, Printable]
  | some places => simp [valueText?, Printable, Numeral.fixed?_eq_none_iff]

@[simp]
theorem evaluateLines_nil : evaluateLines c precision env [] = ({}, env) :=
  rfl

section Cons

variable {line : List Char} (lines : List (List Char))

theorem evaluateLines_cons_of_blank (blank : Blank line) :
    evaluateLines c precision env (line :: lines) = evaluateLines c precision env lines := by
  simp [evaluateLines, show Text.trim line = [] from blank]

theorem evaluateLines_cons_of_error {failure : Failure} (written : ¬ Blank line)
    (failed : (c.evaluate (statementOf line)).run env = .error failure next) :
    evaluateLines c precision env (line :: lines) =
      ((evaluateLines c precision next lines).1.withFailure failure.message,
        (evaluateLines c precision next lines).2) := by
  rw [statementOf] at failed
  simp [evaluateLines, show Text.trim line ≠ [] from written, failed]

theorem evaluateLines_cons_of_ok {text : String} (written : ¬ Blank line)
    (evaluated : (c.evaluate (statementOf line)).run env = .ok x next)
    (shown : valueText? precision x = some text) :
    evaluateLines c precision env (line :: lines) =
      ((evaluateLines c precision next lines).1.withValue text,
        (evaluateLines c precision next lines).2) := by
  rw [statementOf] at evaluated
  simp [evaluateLines, show Text.trim line ≠ [] from written, evaluated, shown]

theorem evaluateLines_cons_of_unprintable (written : ¬ Blank line)
    (evaluated : (c.evaluate (statementOf line)).run env = .ok x next)
    (unprintable : ¬ Printable precision) :
    evaluateLines c precision env (line :: lines) = ({ ending := .panicked }, next) := by
  rw [statementOf] at evaluated
  simp [evaluateLines, show Text.trim line ≠ [] from written, evaluated,
    valueText?_eq_none_iff.mpr unprintable]

theorem blank_or_failing_or_valued (c : Calculator) (env : Environment) (line : List Char) :
    Blank line ∨ Failing c env line ∨ Valued c env line := by
  by_cases blank : Blank line
  · exact .inl blank
  · right
    cases run : (c.evaluate (statementOf line)).run env with
    | error failure after => exact .inl ⟨blank, failure, after, run⟩
    | ok x after => exact .inr ⟨blank, x, after, run⟩

/-- A line that ends a run. -/
def Last (c : Calculator) (precision : Option Nat) (env : Environment) (line : List Char) : Prop :=
  Valued c env line ∧ ¬ Printable precision

instance (c : Calculator) (precision : Option Nat) (env : Environment) (line : List Char) :
    Decidable (Last c precision env line) :=
  inferInstanceAs (Decidable (Valued c env line ∧ ¬ Printable precision))

theorem envBehind_of_ok (written : ¬ Blank line)
    (evaluated : (c.evaluate (statementOf line)).run env = .ok x next) :
    envBehind c env line = next := by
  rw [envBehind, evaluateLines_cons_of_ok [] written evaluated rfl, evaluateLines_nil]

theorem errOf_of_valued (valued : Valued c env line) : errOf c env line = "" := by
  obtain ⟨written, x, after, run⟩ := valued
  rw [errOf, evaluateLines_cons_of_ok [] written run rfl]
  rfl

theorem evaluateLines_cons_of_last (last : Last c precision env line) :
    evaluateLines c precision env (line :: lines) =
      ({ ending := .panicked }, envBehind c env line) := by
  obtain ⟨⟨written, x, after, run⟩, unprintable⟩ := last
  rw [envBehind_of_ok written run]
  exact evaluateLines_cons_of_unprintable lines written run unprintable

/-- What another line does: it prints its value or its error, and the lines behind it run in the
environment that it leaves. -/
theorem evaluateLines_cons (goes : ¬ Last c precision env line) :
    let rest := evaluateLines c precision (envBehind c env line) lines
    evaluateLines c precision env (line :: lines) =
      ({ ending :=
           if Failing c env line then if rest.1.ending = .panicked then .panicked else .failure
           else rest.1.ending
         out := outOf c env line precision ++ rest.1.out
         err := errOf c env line ++ rest.1.err }, rest.2) := by
  intro rest
  rcases blank_or_failing_or_valued c env line with
    blank | ⟨written, failure, after, run⟩ | ⟨written, x, after, run⟩
  · have step (precision : Option Nat) (lines : List (List Char)) :
        evaluateLines c precision env (line :: lines) = _ :=
      evaluateLines_cons_of_blank lines blank
    have fine : ¬ Failing c env line := by simp [Failing, blank]
    simp [rest, envBehind, outOf, errOf, step, fine]
  · have step (precision : Option Nat) (lines : List (List Char)) :
        evaluateLines c precision env (line :: lines) = _ :=
      evaluateLines_cons_of_error lines written run
    have failing : Failing c env line := ⟨written, failure, after, run⟩
    simp [rest, envBehind, outOf, errOf, step, failing, Outcome.withFailure]
  · have valued : Valued c env line := ⟨written, x, after, run⟩
    have fine : ¬ Failing c env line := by simp [Failing, run]
    obtain ⟨text, shown⟩ : ∃ text, valueText? precision x = some text :=
      Option.ne_none_iff_exists'.mp fun none => goes ⟨valued, valueText?_eq_none_iff.mp none⟩
    have step (lines : List (List Char)) : evaluateLines c precision env (line :: lines) = _ :=
      evaluateLines_cons_of_ok lines written run shown
    simp [rest, envBehind_of_ok written run, errOf_of_valued valued, outOf, step, fine,
      Outcome.withValue]

theorem not_valued_of_silent (silent : Blank line ∨ Failing c env line) :
    ¬ Valued c env line := by
  rintro ⟨written, x, after, run⟩
  rcases silent with blank | ⟨_, failure, after', failed⟩
  · exact written blank
  · rw [run] at failed
    cases failed

theorem evaluateLines_of_silent (precision : Option Nat)
    (silent : Blank line ∨ Failing c env line) :
    envBehind c env line = env ∧ outOf c env line precision = "" := by
  rcases silent with blank | ⟨written, failure, after, failed⟩
  · rw [envBehind, outOf, evaluateLines_cons_of_blank _ blank, evaluateLines_cons_of_blank _ blank]
    exact ⟨rfl, rfl⟩
  · obtain rfl := Step.env_of_evaluate_error failed
    rw [envBehind, outOf, evaluateLines_cons_of_error _ written failed,
      evaluateLines_cons_of_error _ written failed]
    exact ⟨rfl, rfl⟩

end Cons

/-- The lines with the given indices. -/
def pick (lines : List (List Char)) (indices : List Nat) : List (List Char) :=
  indices.filterMap (lines[·]?)

/-- The run over the lines with the indices `kept` shows the same values and leaves the same
environment as the run over all lines, and shows the errors that the kept lines have in it. -/
structure Agrees (c : Calculator) (precision : Option Nat) (env : Environment)
    (lines : List (List Char)) (kept : List Nat) : Prop where
  out : (evaluateLines c precision env (pick lines kept)).1.out =
    (evaluateLines c precision env lines).1.out
  left : (evaluateLines c precision env (pick lines kept)).2 =
    (evaluateLines c precision env lines).2
  err : (evaluateLines c precision env (pick lines kept)).1.err =
    String.join ((kept.filter (ReachedAt c precision env lines)).map (errAt c env lines))
  ending : (evaluateLines c precision env (pick lines kept)).1.ending =
    if ¬ Printable precision ∧ ∃ i ∈ kept, ValuedAt c env lines i then .panicked
    else if ∃ i ∈ kept, FailingAt c env lines i then .failure
    else .success

section Shift

variable (line : List Char) (lines : List (List Char)) (i : Nat) (kept : List Nat)

theorem envAt_zero : envAt c env lines 0 = env :=
  rfl

theorem envAt_cons :
    envAt c env (line :: lines) (i + 1) = envAt c (envBehind c env line) lines i := by
  rw [envAt, List.take_succ_cons, evaluateLines_cons _ fun last => last.2 printable_none]
  rfl

theorem envAt_succ {lines : List (List Char)} {i : Nat} {line : List Char}
    (found : lines[i]? = some line) :
    envAt c env lines (i + 1) = envBehind c (envAt c env lines i) line := by
  induction lines generalizing env i with
  | nil => cases found
  | cons first lines ih =>
      cases i with
      | zero =>
          obtain rfl := Option.some.inj found
          rw [envAt_cons, envAt_zero, envAt_zero]
      | succ i => rw [envAt_cons, envAt_cons, ih found]

theorem errAt_zero : errAt c env (line :: lines) 0 = errOf c env line :=
  rfl

theorem errAt_cons :
    errAt c env (line :: lines) (i + 1) = errAt c (envBehind c env line) lines i := by
  rw [errAt, envAt_cons, List.getElem?_cons_succ]
  rfl

theorem failingAt_zero : FailingAt c env (line :: lines) 0 ↔ Failing c env line := by
  simp [FailingAt, envAt_zero]

theorem failingAt_cons : FailingAt c env (line :: lines) (i + 1) ↔
    FailingAt c (envBehind c env line) lines i := by
  rw [FailingAt, envAt_cons, List.getElem?_cons_succ]
  rfl

theorem valuedAt_zero : ValuedAt c env (line :: lines) 0 ↔ Valued c env line := by
  simp [ValuedAt, envAt_zero]

theorem valuedAt_cons : ValuedAt c env (line :: lines) (i + 1) ↔
    ValuedAt c (envBehind c env line) lines i := by
  rw [ValuedAt, envAt_cons, List.getElem?_cons_succ]
  rfl

theorem reachedAt_zero : ReachedAt c precision env lines 0 :=
  .inr fun j before => absurd before j.not_lt_zero

theorem reachedAt_cons : ReachedAt c precision env (line :: lines) (i + 1) ↔
    ¬ Last c precision env line ∧ ReachedAt c precision (envBehind c env line) lines i := by
  simp only [ReachedAt, Last, Nat.forall_lt_succ_left', valuedAt_zero, valuedAt_cons]
  tauto

theorem pick_succ : pick (line :: lines) (kept.map Nat.succ) = pick lines kept := by
  rw [pick, List.filterMap_map]
  rfl

/-- The errors of the lines behind the first one. -/
theorem errors_succ :
    ((kept.map Nat.succ).filter (ReachedAt c precision env (line :: lines))).map
        (errAt c env (line :: lines)) =
      if Last c precision env line then []
      else (kept.filter (ReachedAt c precision (envBehind c env line) lines)).map
        (errAt c (envBehind c env line) lines) := by
  rw [List.filter_map, List.map_map]
  have shift : errAt c env (line :: lines) ∘ Nat.succ = errAt c (envBehind c env line) lines :=
    funext (errAt_cons line lines)
  rw [shift]
  split
  next last => simp [Function.comp_def, reachedAt_cons, last]
  next goes => simp [Function.comp_def, reachedAt_cons, goes]

end Shift

namespace Agrees

variable {line : List Char} {lines : List (List Char)} {kept : List Nat}

theorem nil : Agrees c precision env [] [] where
  out := rfl
  left := rfl
  err := rfl
  ending := by simp [pick]

/-- Keeping the first line. -/
theorem keep (h : Agrees c precision (envBehind c env line) lines kept) :
    Agrees c precision env (line :: lines) (0 :: kept.map Nat.succ) := by
  have picked : pick (line :: lines) (0 :: kept.map Nat.succ) = line :: pick lines kept := by
    rw [← pick_succ line lines kept]
    rfl
  have first : ReachedAt c precision env (line :: lines) 0 := reachedAt_zero _
  by_cases last : Last c precision env line
  · have stop (lines : List (List Char)) :
        evaluateLines c precision env (line :: lines) = _ := evaluateLines_cons_of_last lines last
    have ⟨valued, unprintable⟩ := last
    constructor
    case out => rw [picked, stop, stop]
    case left => rw [picked, stop, stop]
    case err =>
      rw [picked, stop, List.filter_cons, if_pos (decide_eq_true first), List.map_cons,
        errors_succ, if_pos last, errAt_zero, errOf_of_valued valued]
      rfl
    case ending =>
      have here := (valuedAt_zero line lines).mpr valued
      rw [picked, stop, if_pos ⟨unprintable, 0, List.mem_cons_self, here⟩]
  · have step (lines : List (List Char)) :
        evaluateLines c precision env (line :: lines) = _ := evaluateLines_cons lines last
    constructor
    case out =>
      rw [picked, step, step]
      exact congrArg (outOf c env line precision ++ ·) h.out
    case left =>
      rw [picked, step, step]
      exact h.left
    case err =>
      rw [picked, step, List.filter_cons, if_pos (decide_eq_true first), List.map_cons,
        errors_succ, if_neg last, errAt_zero, String.join_cons]
      exact congrArg (errOf c env line ++ ·) h.err
    case ending =>
      have stops : (¬ Printable precision ∧
            ∃ i ∈ 0 :: kept.map Nat.succ, ValuedAt c env (line :: lines) i) ↔
          ¬ Printable precision ∧ ∃ i ∈ kept, ValuedAt c (envBehind c env line) lines i := by
        refine and_congr_right fun none => ?_
        have unvalued : ¬ Valued c env line := fun here => last ⟨here, none⟩
        simp [valuedAt_zero, valuedAt_cons, unvalued]
      have fails : (∃ i ∈ 0 :: kept.map Nat.succ, FailingAt c env (line :: lines) i) ↔
          Failing c env line ∨ ∃ i ∈ kept, FailingAt c (envBehind c env line) lines i := by
        simp [failingAt_zero, failingAt_cons]
      rw [picked, step]
      simp only [h.ending, stops, fails]
      by_cases failing : Failing c env line
      · simp only [failing, if_true, true_or]
        split
        · rfl
        · rw [if_neg (by split <;> decide)]
      · simp only [failing, if_false, false_or]

/-- Leaving out the first line, which has no value. -/
theorem drop (silent : Blank line ∨ Failing c env line) (h : Agrees c precision env lines kept) :
    Agrees c precision env (line :: lines) (kept.map Nat.succ) := by
  have goes : ¬ Last c precision env line := fun last => not_valued_of_silent silent last.1
  obtain ⟨same, nothing⟩ := evaluateLines_of_silent precision silent
  constructor
  case out =>
    rw [pick_succ, h.out, evaluateLines_cons lines goes, same, nothing, String.empty_append]
  case left => rw [pick_succ, h.left, evaluateLines_cons lines goes, same]
  case err => rw [pick_succ, h.err, errors_succ, if_neg goes, same]
  case ending => simp [pick_succ, h.ending, valuedAt_cons, failingAt_cons, same]

/-- Any lines without a value can be left out. -/
theorem of_silent (order : kept.Sublist (List.range lines.length))
    (silent : ∀ i line, lines[i]? = some line → i ∉ kept →
      Blank line ∨ Failing c (envAt c env lines i) line) :
    Agrees c precision env lines kept := by
  induction lines generalizing env kept with
  | nil =>
      obtain rfl := List.sublist_nil.mp order
      exact .nil
  | cons line lines ih =>
      rw [List.length_cons, List.range_succ_eq_map] at order
      rcases List.sublist_cons_iff.mp order with omitted | ⟨rest, rfl, later⟩
      · obtain ⟨kept, inner, rfl⟩ := List.sublist_map_iff.mp omitted
        have here : Blank line ∨ Failing c env line := silent 0 line rfl (by simp)
        apply drop here
        apply ih inner
        intro i other found absent
        have there := silent (i + 1) other found (by simpa using absent)
        rwa [envAt_cons, (evaluateLines_of_silent none here).1] at there
      · obtain ⟨kept, inner, rfl⟩ := List.sublist_map_iff.mp later
        apply keep
        apply ih inner
        intro i other found absent
        have there := silent (i + 1) other found (by simpa using absent)
        rwa [envAt_cons] at there

theorem all (c : Calculator) (precision : Option Nat) (env : Environment)
    (lines : List (List Char)) : Agrees c precision env lines (List.range lines.length) := by
  apply Agrees.of_silent (List.Sublist.refl _)
  intro i line found absent
  obtain ⟨bound, _⟩ := List.getElem?_eq_some_iff.mp found
  exact absurd (List.mem_range.mpr bound) absent

end Agrees

theorem pick_range (lines : List (List Char)) : pick lines (List.range lines.length) = lines := by
  induction lines with
  | nil => rfl
  | cons line lines ih =>
      rw [List.length_cons, List.range_succ_eq_map]
      exact congrArg (line :: ·) ((pick_succ line lines _).trans ih)

theorem exitCode_eq_zero_iff {outcome : Outcome} :
    outcome.exitCode = 0 ↔ outcome.ending = .success := by
  rw [Outcome.exitCode]
  cases outcome.ending <;> decide

theorem ending_ne_success_of_failingAt {lines : List (List Char)} {i : Nat}
    (failing : FailingAt c env lines i) :
    (evaluateLines c precision env lines).1.ending ≠ .success := by
  have ⟨line, found, _⟩ := failing
  obtain ⟨bound, _⟩ := List.getElem?_eq_some_iff.mp found
  have ending := (Agrees.all c precision env lines).ending
  rw [pick_range] at ending
  rw [ending]
  split
  · decide
  · rw [if_pos ⟨i, List.mem_range.mpr bound, failing⟩]
    decide

theorem evaluate_of_tokenize_error {text : String} {failure : Failure}
    (refused : tokenize text = .error failure) :
    (c.evaluate text).run env = .error failure env := by
  simp [Calculator.evaluate, refused]

end Reckoner.CommandLine
