import Reckoner.Failure
import Reckoner.Proofs.Numeral

/-!
# What the message of a failure says

`Says` tells which sentence is the right one for a failure, without the functions that make it up: a
heading for its group and then what it reports, which is a name, a lexeme or the details of a fault.
The messages are these sentences and no others. A heading has no colon, so the group and what is
reported can be read off a message.
-/

namespace Reckoner

open Numeral (Places Shows)

/-- The words for an arity. -/
inductive Arity.Says : Arity → String → Prop
  | any : Says .any "any number of arguments"
  | exactlyOne : Says (.exactly 1) "exactly 1 argument"
  | exactly {count : Nat} {number : String} : count ≠ 1 → Places count 0 number.toList →
      Says (.exactly count) ("exactly " ++ number ++ " arguments")
  | atLeastOne : Says (.atLeast 1) "at least 1 argument"
  | atLeast {count : Nat} {number : String} : count ≠ 1 → Places count 0 number.toList →
      Says (.atLeast count) ("at least " ++ number ++ " arguments")

/-- The details of a fault of the operands. -/
inductive OperandFault.Says : OperandFault → String → Prop
  | divisionByZero : Says .divisionByZero "division by zero"
  | modulusByZero : Says .modulusByZero "modulus by zero"
  | namedCall {callee words number : String} {arity : Arity} {given : Nat} : arity.Says words →
      Places given 0 number.toList → Says (.argumentCount (some callee) arity given)
        (callee ++ " expects " ++ words ++ ", but got " ++ number)
  | call {words number : String} {arity : Arity} {given : Nat} : arity.Says words →
      Places given 0 number.toList → Says (.argumentCount none arity given)
        ("expected " ++ words ++ ", but got " ++ number)
  | averageOfNothing : Says .averageOfNothing "can't take average of zero numbers"
  | factorialOfNaN : Says .factorialOfNaN "factorial of NaN"
  | factorialOfNegative {x : Float} {number : String} : Shows none x number.toList →
      Says (.factorialOfNegative x) ("factorial is not defined for negative integer " ++ number)
  | custom (details : String) : Says (.custom details) details

/-- The details of a fault of syntax. -/
inductive SyntaxFault.Says : SyntaxFault → String → Prop
  | emptyStatement : Says .emptyStatement "empty statement"
  | malformedDeclaration : Says .malformedDeclaration "expected `let <name> = <expression>`"
  | missingValue (name : String) : Says (.missingValue name) ("missing value for `" ++ name ++ "`")
  | missingOperand : Says .missingOperand "expected an operand"
  | trailing (text : String) : Says (.trailing text) ("unexpected `" ++ text ++ "` after operand")
  | custom (details : String) : Says (.custom details) details

namespace Failure

/-- A failure reports a text under a heading. -/
inductive Reports : Failure → String → String → Prop
  | unknownToken (text : String) : Reports (.unknownToken text) "unknown token" text
  | badLiteral (text : String) : Reports (.badLiteral text) "not a valid number" text
  | unsupportedOperand {fault : OperandFault} {details : String} : fault.Says details →
      Reports (.unsupportedOperand fault) "operation not supported by operand" details
  | syntaxError {fault : SyntaxFault} {details : String} : fault.Says details →
      Reports (.syntaxError fault) "syntax error" details
  | redeclared (name : String) : Reports (.redeclared name) "variable already exists" name
  | undefined (name : String) : Reports (.undefined name) "no such variable" name

/-- The sentence for a failure. -/
inductive Says : Failure → String → Prop
  | unbalanced : Says .unbalanced "unbalanced parentheses."
  | report {failure : Failure} {heading text : String} : failure.Reports heading text →
      Says failure (heading ++ ": " ++ text ++ ".")

end Failure

section Numbers

variable {n : Nat} {number : String}

theorem places_toString (n : Nat) : Places n 0 (toString n).toList := by
  rw [Numeral.places_iff, Decimal.withPlaces, if_pos rfl, Nat.pow_zero, Nat.div_one,
    Decimal.digits]
  exact String.toList_ofList

theorem eq_toString_of_places (written : Places n 0 number.toList) : number = toString n :=
  String.toList_injective
    ((Numeral.places_iff.mp written).trans (Numeral.places_iff.mp (places_toString n)).symm)

end Numbers

section Messages

variable {text : String}

theorem Arity.text_eq_iff {arity : Arity} : arity.text = text ↔ arity.Says text := by
  constructor
  · rintro rfl
    cases arity with
    | any => exact .any
    | exactly count =>
        by_cases one : count = 1
        · subst one
          exact .exactlyOne
        · simpa [Arity.text, Arity.text.arguments, one, String.append_assoc] using
            Says.exactly one (places_toString count)
    | atLeast count =>
        by_cases one : count = 1
        · subst one
          exact .atLeastOne
        · simpa [Arity.text, Arity.text.arguments, one, String.append_assoc] using
            Says.atLeast one (places_toString count)
  · intro said
    cases said with
    | any | exactlyOne | atLeastOne => rfl
    | exactly many written | atLeast many written =>
        rw [eq_toString_of_places written]
        simp [Arity.text, Arity.text.arguments, many, String.append_assoc]

theorem OperandFault.details_eq_iff {fault : OperandFault} :
    fault.details = text ↔ fault.Says text := by
  constructor
  · rintro rfl
    cases fault with
    | divisionByZero => exact .divisionByZero
    | modulusByZero => exact .modulusByZero
    | argumentCount callee arity given =>
        have words := Arity.text_eq_iff.mp (rfl : arity.text = _)
        cases callee with
        | some callee => exact .namedCall words (places_toString given)
        | none => exact .call words (places_toString given)
    | averageOfNothing => exact .averageOfNothing
    | factorialOfNaN => exact .factorialOfNaN
    | factorialOfNegative x => exact .factorialOfNegative (Numeral.shows_plain x)
    | custom details => exact .custom details
  · intro said
    cases said with
    | namedCall words written | call words written =>
        rw [← Arity.text_eq_iff.mpr words, eq_toString_of_places written]
        rfl
    | factorialOfNegative shown =>
        rw [← Numeral.plain_eq_iff.mpr shown]
        rfl
    | divisionByZero | modulusByZero | averageOfNothing | factorialOfNaN | custom => rfl

theorem SyntaxFault.details_eq_iff {fault : SyntaxFault} :
    fault.details = text ↔ fault.Says text := by
  constructor
  · rintro rfl
    cases fault <;> constructor
  · intro said
    cases said <;> rfl

/-- The message of a failure is the sentence that says it. -/
theorem Failure.message_eq_iff {failure : Failure} :
    failure.message = text ↔ failure.Says text := by
  constructor
  · rintro rfl
    cases failure with
    | unbalanced => exact .unbalanced
    | unknownToken text => exact .report (.unknownToken text)
    | badLiteral text => exact .report (.badLiteral text)
    | unsupportedOperand fault =>
        exact .report (.unsupportedOperand (OperandFault.details_eq_iff.mp rfl))
    | syntaxError fault => exact .report (.syntaxError (SyntaxFault.details_eq_iff.mp rfl))
    | redeclared name => exact .report (.redeclared name)
    | undefined name => exact .report (.undefined name)
  · intro said
    cases said with
    | unbalanced => rfl
    | report reported =>
        cases reported with
        | unsupportedOperand details =>
            rw [← OperandFault.details_eq_iff.mpr details]
            rfl
        | syntaxError details =>
            rw [← SyntaxFault.details_eq_iff.mpr details]
            rfl
        | unknownToken | badLiteral | redeclared | undefined => rfl

end Messages

namespace Failure

variable {failure other : Failure} {heading heading' text text' : String}

/-- The heading stands for the group of a failure. -/
theorem Reports.kind_eq (h : failure.Reports heading text) (h' : other.Reports heading' text')
    (same : heading = heading') : failure.kind = other.kind := by
  cases h <;> cases h' <;> first | rfl | exact absurd same (by decide)

theorem Reports.colon_notMem (h : failure.Reports heading text) : ':' ∉ heading.toList := by
  cases h <;> decide

/-- What stands in front of the first colon of a message and what stands behind it. -/
theorem Reports.heading_text_eq (h : failure.Reports heading text)
    (h' : other.Reports heading' text')
    (same : heading ++ ": " ++ text ++ "." = heading' ++ ": " ++ text' ++ ".") :
    heading = heading' ∧ text = text' := by
  have chars := congrArg String.toList same
  simp only [String.toList_append, List.append_assoc] at chars
  have front := congrArg (List.takeWhile (· ≠ ':')) chars
  have own {cs rest : List Char} (free : ':' ∉ cs) :
      (cs ++ (": ".toList ++ rest)).takeWhile (· ≠ ':') = cs := by
    rw [List.takeWhile_append_of_pos fun c member => by
      simpa using ne_of_mem_of_not_mem member free]
    simp
  rw [own h.colon_notMem, own h'.colon_notMem] at front
  rw [front] at chars
  have behind := List.append_cancel_left (List.append_cancel_left chars)
  exact ⟨String.toList_injective front, String.toList_injective (List.append_cancel_right behind)⟩

theorem unbalanced_or_reports (failure : Failure) :
    failure = .unbalanced ∨ ∃ heading text, failure.Reports heading text := by
  generalize message : failure.message = sentence
  cases message_eq_iff.mp message with
  | unbalanced => exact .inl rfl
  | report reported => exact .inr ⟨_, _, reported⟩

theorem Reports.of_message_eq (same : failure.message = other.message)
    (h : failure.Reports heading text) : other.Reports heading text := by
  have message := message_eq_iff.mpr (.report h)
  rw [same] at message
  rcases unbalanced_or_reports other with rfl | ⟨heading', text', h'⟩
  · have colon : ':' ∈ (heading ++ ": " ++ text ++ ".").toList := by simp
    rw [← message] at colon
    exact absurd colon (by decide)
  · obtain ⟨rfl, rfl⟩ := h.heading_text_eq h' (message.symm.trans (message_eq_iff.mpr (.report h')))
    exact h'

/-- Failures with the same message are of the same group and report the same text. -/
theorem reports_of_message_eq (same : failure.message = other.message) :
    failure.kind = other.kind ∧
      ∀ heading text, failure.Reports heading text ↔ other.Reports heading text := by
  refine ⟨?_, fun _ _ => ⟨.of_message_eq same, .of_message_eq same.symm⟩⟩
  rcases unbalanced_or_reports failure with rfl | ⟨_, _, h⟩
  · rcases unbalanced_or_reports other with rfl | ⟨_, _, h'⟩
    · rfl
    · cases Reports.of_message_eq same.symm h'
  · exact h.kind_eq (h.of_message_eq same) rfl

end Failure

end Reckoner
