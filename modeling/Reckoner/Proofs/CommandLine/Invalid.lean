import Reckoner.Proofs.CommandLine.Transcript
import Reckoner.Proofs.Lexical.Tokenize
import Reckoner.Proofs.Text.Replacement

/-!
# Lines that are no text

Each line is decoded by itself, so octets that are not UTF-8 change no line but their own. That line
has a replacement character in it, which is no blank and starts no token: the line is evaluated, and
its statement fails before any of it is looked up.
-/

namespace Reckoner.CommandLine

open Lexical (IsLexical IsLexemeChar tokenize_of_foreign)

variable {c : Calculator} {env : Environment} {line : List UInt8}

theorem not_blank_of_invalid (invalid : ¬ Text.Utf8.Valid line) :
    ¬ Blank (Text.Utf8.decode line) :=
  List.ne_nil_of_mem (Text.replacement_mem_trim invalid)

/-- The statement of a line that is no text fails in its reading, whatever has been declared. -/
theorem tokenize_of_invalid (invalid : ¬ Text.Utf8.Valid line) :
    ∃ failure, IsLexical failure ∧
      tokenize (statementOf (Text.Utf8.decode line)) = .error failure := by
  have member : Text.Utf8.replacement ∈ (statementOf (Text.Utf8.decode line)).toList := by
    rw [statementOf, String.toList_ofList]
    exact Text.replacement_mem_trim invalid
  have foreign : ¬ IsLexemeChar Text.Utf8.replacement := by
    rintro (digit | letter | mark)
    · exact absurd digit (by decide)
    · exact absurd letter (by decide)
    · exact absurd (List.elem_eq_true_of_mem mark) (by decide)
  have visible : ¬ Lexical.Blank [Text.Utf8.replacement] := fun blank =>
    absurd (List.elem_eq_true_of_mem (blank _ (.head []))) (by decide)
  exact tokenize_of_foreign member foreign visible

section Lines

variable {lines : List (List UInt8)} {i : Nat} {other : List UInt8}

theorem lines_intercalate (whole : ∀ line ∈ lines, Text.lineFeed ∉ line) :
    Text.lines ([Text.lineFeed].intercalate lines) =
      (if lines.getLast? = some [] then lines.dropLast else lines).map Text.Utf8.decode := by
  rw [Text.lines, Text.splitLines_intercalate whole]

theorem getElem?_lines_intercalate (whole : ∀ line ∈ lines, Text.lineFeed ∉ line)
    (found : lines[i]? = some line) (nonempty : line ≠ []) :
    (Text.lines ([Text.lineFeed].intercalate lines))[i]? = some (Text.Utf8.decode line) := by
  rw [lines_intercalate whole, List.getElem?_map, Option.map_eq_some_iff]
  refine ⟨line, ?_, rfl⟩
  split
  next empty =>
    -- The empty line at the end is not the one at `i`.
    have present := (List.getElem?_eq_some_iff.mp found).1
    have before : i < lines.length - 1 := by
      by_contra last
      rw [List.getLast?_eq_getElem?, show lines.length - 1 = i by omega, found] at empty
      exact nonempty (Option.some.inj empty)
    rwa [List.dropLast_eq_take, List.getElem?_take_of_lt before]
  next => exact found

/-- Other octets in the place of a line change the text of no other line. If they are none at the
end, no line is left there. -/
theorem lines_set (whole : ∀ line ∈ lines, Text.lineFeed ∉ line) (found : lines[i]? = some line)
    (nonempty : line ≠ []) (single : Text.lineFeed ∉ other) :
    let texts := Text.lines ([Text.lineFeed].intercalate lines)
    Text.lines ([Text.lineFeed].intercalate (lines.set i other)) =
      if other = [] ∧ i + 1 = lines.length then texts.take i
      else texts.set i (Text.Utf8.decode other) := by
  intro texts
  have whole' : ∀ line ∈ lines.set i other, Text.lineFeed ∉ line := by
    intro line member
    rcases List.mem_or_eq_of_mem_set member with kept | rfl
    · exact whole line kept
    · exact single
  have present := (List.getElem?_eq_some_iff.mp found).1
  rw [lines_intercalate whole', show texts = _ from lines_intercalate whole,
    List.getLast?_eq_getElem?, List.getLast?_eq_getElem?, List.length_set]
  by_cases last : i + 1 = lines.length
  · have here : lines.length - 1 = i := by omega
    have kept : lines[i]? ≠ some [] := by simpa [found] using nonempty
    rw [here, List.getElem?_set_self present, if_neg kept]
    by_cases empty : other = []
    · subst empty
      rw [if_pos rfl, if_pos ⟨rfl, last⟩, List.dropLast_eq_take, List.length_set, here,
        List.take_set_of_le le_rfl, List.map_take]
    · rw [if_neg (by simpa using empty), if_neg fun both => empty both.1, List.map_set]
  · have apart : i ≠ lines.length - 1 := by omega
    rw [List.getElem?_set_ne apart, if_neg fun both : other = [] ∧ _ => last both.2, ← List.map_set]
    split
    · rw [List.dropLast_eq_take, List.dropLast_eq_take, List.length_set, List.take_set]
    · rfl

end Lines

theorem envAt_succ_of_failingAt {lines : List (List Char)} {i : Nat}
    (failing : FailingAt c env lines i) : envAt c env lines (i + 1) = envAt c env lines i := by
  obtain ⟨line, found, failing⟩ := failing
  rw [envAt_succ found, (evaluateLines_of_silent none (.inr failing)).1]

/-- A line that is not UTF-8 is not passed over and not evaluated silently. It is reported as a
failure of its reading, the environment stays as it was and the run does not succeed; the texts of
the other lines do not depend on it. More generally, a text with a character that no lexeme and no
blank has is never read to its end. -/
theorem invalid_line_reported (c : Calculator) (precision : Option Nat) (env : Environment)
    (lines : List (List UInt8)) (whole : ∀ line ∈ lines, Text.lineFeed ∉ line)
    (i : Nat) (line : List UInt8) (found : lines[i]? = some line)
    (invalid : ¬ Text.Utf8.Valid line) :
    let texts := Text.lines ([Text.lineFeed].intercalate lines)
    let text := Text.Utf8.decode line
    (texts[i]? = some text ∧ ¬ Blank text ∧
      (∃ failure, IsLexical failure ∧
        (∀ env, (c.evaluate (statementOf text)).run env = .error failure env) ∧
        errAt c env texts i = "Error: " ++ failure.message ++ "\n") ∧
      envAt c env texts (i + 1) = envAt c env texts i ∧
      (evaluateLines c precision env texts).1.exitCode ≠ 0) ∧
    (∀ other, Text.lineFeed ∉ other →
      Text.lines ([Text.lineFeed].intercalate (lines.set i other)) =
        if other = [] ∧ i + 1 = lines.length then texts.take i
        else texts.set i (Text.Utf8.decode other)) ∧
    ∀ source ts, tokenize source = .ok ts →
      ∀ char ∈ source.toList, IsLexemeChar char ∨ Lexical.Blank [char] := by
  intro texts text
  have nonempty : line ≠ [] := by
    rintro rfl
    exact invalid (by decide +kernel)
  have here : texts[i]? = some text := getElem?_lines_intercalate whole found nonempty
  have written := not_blank_of_invalid invalid
  obtain ⟨failure, lexical, refused⟩ := tokenize_of_invalid invalid
  have fails (env : Environment) : (c.evaluate (statementOf text)).run env = .error failure env :=
    evaluate_of_tokenize_error refused
  have failing : FailingAt c env texts i := ⟨text, here, written, failure, _, fails _⟩
  refine ⟨⟨here, written, ⟨failure, lexical, fails, ?_⟩, envAt_succ_of_failingAt failing, ?_⟩,
    fun other single => lines_set whole found nonempty single, ?_⟩
  · rw [errAt, here, Option.toList_some, evaluateLines_cons_of_error [] written (fails _)]
    simp [Outcome.withFailure]
  · exact mt exitCode_eq_zero_iff.mp (ending_ne_success_of_failingAt failing)
  · intro source ts read
    exact (Lexical.tokenize_eq_ok_iff.mp read).1.chars

/-- A character of three octets that the line feed cuts short, between two lines that have
values. -/
theorem invalid_line_reported_cut :
    let c : Calculator := {}
    let line : List UInt8 := [0x78, 0xE2, 0x82]
    let lines : List (List UInt8) := [[0x31], line, [0x32]]
    let texts := Text.lines [0x31, 0x0A, 0x78, 0xE2, 0x82, 0x0A, 0x32]
    lines[1]? = some line ∧ ¬ Text.Utf8.Valid line ∧
      texts[1]? = some (Text.Utf8.decode line) ∧ ¬ Blank (Text.Utf8.decode line) ∧
      envAt c {} texts 2 = envAt c {} texts 1 ∧ (evaluateLines c none {} texts).1.exitCode ≠ 0 := by
  intro c line lines texts
  have invalid : ¬ Text.Utf8.Valid line := by decide +kernel
  obtain ⟨⟨here, written, _, same, failed⟩, _⟩ :=
    invalid_line_reported c none {} lines (by decide) 1 line rfl invalid
  exact ⟨rfl, invalid, here, written, same, failed⟩

end Reckoner.CommandLine
