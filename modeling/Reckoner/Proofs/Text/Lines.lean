import Mathlib.Data.List.TakeWhile
import Reckoner.Text.Lines
import Reckoner.Proofs.Text.Utf8

/-!
# The lines that octets write

The same lines can be written in more than one way: a carriage return may stand in front of a line
feed, and the last line feed may be left out. A carriage return is a blank, so the statements on
the lines are the same for all ways of writing them.
-/

namespace Reckoner.Text

section Trim

variable {cs text : List Char}

/-- The text between the blanks at the two ends of another one. -/
def Trimmed (cs text : List Char) : Prop :=
  ∃ front back, cs = front ++ text ++ back ∧ (∀ c ∈ front ++ back, isBlank c) ∧
    (∀ c ∈ text.head?, ¬ isBlank c) ∧ ∀ c ∈ text.getLast?, ¬ isBlank c

theorem head?_dropWhile_isBlank (cs : List Char) :
    ∀ c ∈ (cs.dropWhile isBlank).head?, ¬ isBlank c := by
  intro c found
  have first := List.head?_dropWhile_not isBlank cs
  rw [Option.mem_def.mp found] at first
  simpa using first

theorem dropWhile_isBlank_eq_self (first : ∀ c ∈ cs.head?, ¬ isBlank c) :
    cs.dropWhile isBlank = cs := by
  cases cs with
  | nil => rfl
  | cons c cs => exact List.dropWhile_cons_of_neg (first c rfl)

theorem trimmed_trim (cs : List Char) : Trimmed cs (trim cs) := by
  let inner := cs.dropWhile isBlank
  let back := (inner.reverse.takeWhile isBlank).reverse
  have cut : inner = trim cs ++ back := by
    rw [← List.reverse_inj, List.reverse_append, List.reverse_reverse]
    simp [trim, inner]
  refine ⟨cs.takeWhile isBlank, back, ?_, ?_, ?_, ?_⟩
  · rw [List.append_assoc, ← cut, List.takeWhile_append_dropWhile]
  · intro c member
    rcases List.mem_append.mp member with front | behind
    · exact List.mem_takeWhile_imp front
    · exact List.mem_takeWhile_imp (List.mem_reverse.mp behind)
  · intro c found
    apply head?_dropWhile_isBlank cs c
    show c ∈ inner.head?
    rw [cut, List.head?_append, Option.mem_def.mp found]
    rfl
  · intro c found
    apply head?_dropWhile_isBlank inner.reverse c
    rwa [trim, List.getLast?_reverse] at found

theorem Trimmed.trim_eq (h : Trimmed cs text) : trim cs = text := by
  obtain ⟨front, back, rfl, blank, first, last⟩ := h
  rw [List.forall_mem_append] at blank
  have behind : ∀ c ∈ back.reverse, isBlank c := by simpa using blank.2
  have last : ∀ c ∈ text.reverse.head?, ¬ isBlank c := by rwa [List.head?_reverse]
  rw [trim, List.append_assoc, List.dropWhile_append_of_pos blank.1]
  cases text with
  | nil => simp [List.dropWhile_eq_nil_iff.mpr blank.2]
  | cons c text =>
      have kept : ((c :: text) ++ back).dropWhile isBlank = (c :: text) ++ back :=
        dropWhile_isBlank_eq_self first
      rw [kept, List.reverse_append, List.dropWhile_append_of_pos behind,
        dropWhile_isBlank_eq_self last, List.reverse_reverse]

theorem Trimmed.append_blank {back : List Char} (h : Trimmed cs text)
    (blank : ∀ c ∈ back, isBlank c) : Trimmed (cs ++ back) text := by
  obtain ⟨front, own, rfl, around, first, last⟩ := h
  refine ⟨front, own ++ back, by simp, ?_, first, last⟩
  rw [← List.append_assoc]
  exact List.forall_mem_append.mpr ⟨around, blank⟩

theorem trim_append_blank {back : List Char} (blank : ∀ c ∈ back, isBlank c) :
    trim (cs ++ back) = trim cs :=
  ((trimmed_trim cs).append_blank blank).trim_eq

end Trim

def carriageReturn : UInt8 := 0x0D

/-- Octets that write lines, one after the other. A line ends with a line feed, which a carriage
return may precede; the last one may break off without. -/
inductive Writes : List (List UInt8) → List UInt8 → Prop
  | nothing : Writes [] []
  | unended {line : List UInt8} (whole : lineFeed ∉ line) : Writes [line] line
  | ended {line ending rest : List UInt8} {lines : List (List UInt8)} (whole : lineFeed ∉ line)
      (known : ending = [lineFeed] ∨ ending = [carriageReturn, lineFeed])
      (behind : Writes lines rest) : Writes (line :: lines) (line ++ ending ++ rest)

theorem splitLines_of_notMem {line : List UInt8} (nonempty : line ≠ [])
    (whole : lineFeed ∉ line) : splitLines line = [line] := by
  induction line with
  | nil => exact absurd rfl nonempty
  | cons b line ih =>
      rw [List.mem_cons, not_or] at whole
      rw [splitLines, if_neg (Ne.symm whole.1)]
      cases line with
      | nil => rfl
      | cons next line => rw [ih (List.cons_ne_nil _ _) whole.2]

theorem splitLines_append {line : List UInt8} (whole : lineFeed ∉ line) (rest : List UInt8) :
    splitLines (line ++ lineFeed :: rest) = line :: splitLines rest := by
  induction line with
  | nil => simp [splitLines]
  | cons b line ih =>
      rw [List.mem_cons, not_or] at whole
      rw [List.cons_append, splitLines, if_neg (Ne.symm whole.1), ih whole.2]

theorem splitLines_ne_nil {content : List UInt8} (nonempty : content ≠ []) :
    splitLines content ≠ [] := by
  cases content with
  | nil => exact absurd rfl nonempty
  | cons b content =>
      rw [splitLines]
      split
      · exact List.cons_ne_nil _ _
      · split <;> exact List.cons_ne_nil _ _

/-- What stands behind a line feed is split apart from what it ends. -/
theorem splitLines_append_of_ended (front rest : List UInt8) :
    splitLines (front ++ lineFeed :: rest) =
      splitLines (front ++ [lineFeed]) ++ splitLines rest := by
  induction front with
  | nil => rfl
  | cons b front ih =>
      obtain ⟨line, lines, cut⟩ :=
        List.exists_cons_of_ne_nil (splitLines_ne_nil (List.concat_ne_nil lineFeed front))
      rw [List.cons_append, List.cons_append, splitLines, splitLines, ih, cut]
      split <;> rfl

/-- The octets behind the last line feed are no line that ends. -/
theorem endedLines_append {content rest : List UInt8}
    (ended : ∀ b ∈ content.getLast?, b = lineFeed) (cut : lineFeed ∉ rest) :
    endedLines (content ++ rest) = lines content := by
  have last : splitLines (rest ++ [lineFeed]) = [rest] := splitLines_append cut []
  rcases List.eq_nil_or_concat content with rfl | ⟨front, b, rfl⟩
  · rw [endedLines, List.nil_append, last]
    rfl
  · obtain rfl : b = lineFeed := ended b (by simp)
    have apart := splitLines_append_of_ended front (rest ++ [lineFeed])
    rw [last] at apart
    rw [endedLines, lines, List.concat_eq_append, List.append_assoc, List.append_assoc,
      List.singleton_append, apart, List.dropLast_concat]

/-- Lines with a line feed between each two of them are split again as they were, but for an empty
line at the end. -/
theorem splitLines_intercalate {lines : List (List UInt8)}
    (whole : ∀ line ∈ lines, lineFeed ∉ line) :
    splitLines ([lineFeed].intercalate lines) =
      if lines.getLast? = some [] then lines.dropLast else lines := by
  induction lines with
  | nil => rfl
  | cons line lines ih =>
      rw [List.forall_mem_cons] at whole
      cases lines with
      | nil =>
          rw [List.intercalate_singleton, List.getLast?_singleton]
          by_cases empty : line = []
          · subst empty
            rfl
          · rw [if_neg (by simpa using empty), splitLines_of_notMem empty whole.1]
      | cons second rest =>
          rw [List.intercalate_cons_cons, List.append_assoc, List.singleton_append,
            splitLines_append whole.1, ih whole.2, List.getLast?_cons_cons,
            List.dropLast_cons_cons]
          split <;> rfl

/-- A carriage return at the end of a line is a blank. -/
theorem trim_decode_carriageReturn (line : List UInt8) :
    trim (Utf8.decode (line ++ [carriageReturn])) = trim (Utf8.decode line) := by
  have last : Utf8.decode [carriageReturn] = ['\r'] := by
    rw [Utf8.decode_cons, List.drop_nil, Utf8.decode]
    rfl
  rw [Utf8.decode_append (by decide), last]
  exact trim_append_blank (List.forall_mem_singleton.mpr rfl)

/-- A line is split off with at most a blank behind it. -/
theorem splitLines_ended {line ending : List UInt8} (whole : lineFeed ∉ line)
    (known : ending = [lineFeed] ∨ ending = [carriageReturn, lineFeed]) (rest : List UInt8) :
    ∃ front, splitLines (line ++ ending ++ rest) = front :: splitLines rest ∧
      trim (Utf8.decode front) = trim (Utf8.decode line) := by
  rcases known with rfl | rfl
  · refine ⟨line, ?_, rfl⟩
    rw [List.append_assoc]
    exact splitLines_append whole rest
  · have both : lineFeed ∉ line ++ [carriageReturn] := by
      simpa [carriageReturn, lineFeed] using whole
    refine ⟨line ++ [carriageReturn], ?_, trim_decode_carriageReturn line⟩
    rw [← splitLines_append both rest]
    simp

end Reckoner.Text
