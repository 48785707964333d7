import Reckoner.Proofs.CommandLine.Lines
import Reckoner.Proofs.Failure
import Reckoner.Proofs.Text.Lines

/-!
# Runs over octets

A run reads its lines as text, trims them, passes over those that are empty and evaluates the
others one after the other. What it prints and returns depends on the lines alone: not on how the
octets end them, and not on whether the octets come from a file, from standard input or, for a
single line, from the operand.
-/

namespace Reckoner.CommandLine

/-- What a run over lines prints and returns, and the environment that it leaves. The run goes on
behind a statement that fails, in the environment that this one found, and it breaks off where a
value is to be shown with more places than there can be. -/
inductive Transcript (c : Calculator) (precision : Option Nat) :
    Environment → List (List UInt8) → Outcome → Environment → Prop
  | done (env : Environment) :
      Transcript c precision env [] { ending := .success, out := "", err := "" } env
  | blank {env after : Environment} {line : List UInt8} {lines : List (List UInt8)}
      {outcome : Outcome} (trimmed : Text.Trimmed (Text.Utf8.decode line) [])
      (rest : Transcript c precision env lines outcome after) :
      Transcript c precision env (line :: lines) outcome after
  | value {env next after : Environment} {line : List UInt8} {lines : List (List UInt8)}
      {outcome : Outcome} {text : List Char} {x : Float} {number : String}
      (trimmed : Text.Trimmed (Text.Utf8.decode line) text) (written : text ≠ [])
      (evaluated : (c.evaluate (String.ofList text)).run env = .ok x next)
      (printable : Printable precision) (shown : Numeral.Shows precision x number.toList)
      (rest : Transcript c precision next lines outcome after) :
      Transcript c precision env (line :: lines)
        { outcome with out := "= " ++ number ++ "\n" ++ outcome.out } after
  | failure {env after : Environment} {line : List UInt8} {lines : List (List UInt8)}
      {outcome : Outcome} {text : List Char} {failure : Failure} {message : String}
      (trimmed : Text.Trimmed (Text.Utf8.decode line) text) (written : text ≠ [])
      (failed : (c.evaluate (String.ofList text)).run env = .error failure env)
      (said : failure.Says message) (rest : Transcript c precision env lines outcome after) :
      Transcript c precision env (line :: lines)
        { ending := if outcome.ending = .panicked then .panicked else .failure
          out := outcome.out
          err := "Error: " ++ message ++ "\n" ++ outcome.err } after
  | panic {env next : Environment} {line : List UInt8} {lines : List (List UInt8)}
      {text : List Char} {x : Float} (trimmed : Text.Trimmed (Text.Utf8.decode line) text)
      (written : text ≠ []) (evaluated : (c.evaluate (String.ofList text)).run env = .ok x next)
      (unprintable : ¬ Printable precision) :
      Transcript c precision env (line :: lines) { ending := .panicked, out := "", err := "" } next

namespace Transcript

variable {c : Calculator} {precision : Option Nat} {env after : Environment}
  {lines : List (List UInt8)} {outcome : Outcome}

theorem evaluateLines_eq (h : Transcript c precision env lines outcome after) :
    evaluateLines c precision env (lines.map Text.Utf8.decode) = (outcome, after) := by
  induction h with
  | done => rfl
  | blank trimmed rest ih => rw [List.map_cons, evaluateLines_cons_of_blank _ trimmed.trim_eq, ih]
  | value trimmed written evaluated printable shown rest ih =>
      rw [← trimmed.trim_eq] at written evaluated
      have text := valueText?_eq_some_iff.mpr ⟨printable, shown⟩
      rw [List.map_cons, evaluateLines_cons_of_ok _ written evaluated text, ih]
      rfl
  | failure trimmed written failed said rest ih =>
      rw [← trimmed.trim_eq] at written failed
      rw [List.map_cons, evaluateLines_cons_of_error _ written failed, ih,
        Failure.message_eq_iff.mpr said]
      rfl
  | panic trimmed written evaluated unprintable =>
      rw [← trimmed.trim_eq] at written evaluated
      rw [List.map_cons, evaluateLines_cons_of_unprintable _ written evaluated unprintable]

end Transcript

section Writes

variable {c : Calculator} {precision : Option Nat}

theorem evaluateLines_cons_congr {env : Environment} {line other : List Char}
    {xs ys : List (List Char)} (trimmed : Text.trim line = Text.trim other)
    (rest : ∀ env, evaluateLines c precision env xs = evaluateLines c precision env ys) :
    evaluateLines c precision env (line :: xs) = evaluateLines c precision env (other :: ys) := by
  simp only [evaluateLines, trimmed, rest]

/-- A run does not depend on how its lines are written. -/
theorem evaluateLines_of_writes (c : Calculator) (precision : Option Nat) (env : Environment)
    {lines : List (List UInt8)} {content : List UInt8} (written : Text.Writes lines content) :
    evaluateLines c precision env (Text.lines content) =
      evaluateLines c precision env (lines.map Text.Utf8.decode) := by
  induction written generalizing env with
  | nothing => rfl
  | @unended line whole =>
      by_cases empty : line = []
      · subst empty
        have blank : Blank (Text.Utf8.decode []) := by
          rw [Text.Utf8.decode]
          rfl
        exact (evaluateLines_cons_of_blank [] blank).symm
      · rw [Text.lines, Text.splitLines_of_notMem empty whole]
  | ended whole known behind ih =>
      obtain ⟨front, cut, same⟩ := Text.splitLines_ended whole known _
      rw [Text.lines, cut]
      exact evaluateLines_cons_congr same ih

end Writes

namespace Options

end Options

section Routes

variable {o : Options} {lookUp : String → FileContent} {input : Input} {content : List UInt8}

/-- A run depends on the lines alone, whichever octets write them. -/
theorem runLines_of_transcript {lines : List (List UInt8)} {outcome : Outcome}
    {after : Environment} (written : Text.Writes lines content)
    (told : Transcript o.calculator o.precision {} lines outcome after) :
    runLines o (Text.lines content) = outcome := by
  rw [runLines, evaluateLines_of_writes o.calculator o.precision {} written, told.evaluateLines_eq]

/-- If the octets cannot be read to their end, the line that is cut short is lost, and the fault is
reported behind what the lines in front of it show. -/
theorem runInput_of_fault {lines : List (List UInt8)} {rest : List UInt8} {message : String}
    {outcome : Outcome} {after : Environment} (written : Text.Writes lines content)
    (ended : ∀ b ∈ content.getLast?, b = Text.lineFeed) (cut : Text.lineFeed ∉ rest)
    (told : Transcript o.calculator o.precision {} lines outcome after) :
    runInput o { octets := content ++ rest, fault := some message } =
      if outcome.ending = .panicked then outcome
      else
        { ending := .failure, out := outcome.out
          err := outcome.err ++ "Error: " ++ message ++ "\n" } := by
  have ran := runLines_of_transcript written told
  rw [← Text.endedLines_append ended cut] at ran
  rw [runInput, ran]
  rfl

end Routes

end Reckoner.CommandLine
