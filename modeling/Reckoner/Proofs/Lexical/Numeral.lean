import Reckoner.Proofs.Lexical.Rules

/-!
# Numerals and the decimals that they write

The first dot splits a body into the digits before it and the rest, which holds no other dot if the
body is well formed. `ofLiteral?` reads the two sides apart; joined again they are the digits of the
body, so the decimal is the one that the rules name.
-/

namespace Reckoner.Lexical

variable {cs body part w : List Char} {power : Int}

theorem takeWhile_append_stop {p : Char → Bool} {inside : List Char} (rest : List Char)
    (all : ∀ c ∈ inside, p c) (stop : ∀ c, rest.head? = some c → p c = false) :
    (inside ++ rest).takeWhile p = inside := by
  rw [List.takeWhile_append_of_pos all]
  cases rest with
  | nil => simp
  | cons c rest => simp [stop c rfl]

theorem dropWhile_append_stop {p : Char → Bool} {inside : List Char} (rest : List Char)
    (all : ∀ c ∈ inside, p c) (stop : ∀ c, rest.head? = some c → p c = false) :
    (inside ++ rest).dropWhile p = rest := by
  rw [List.dropWhile_append_of_pos all]
  cases rest with
  | nil => simp
  | cons c rest => simp [stop c rfl]

theorem isBodyChar_iff {c : Char} : Decimal.isBodyChar c = true ↔ c.isDigit ∨ c = '.' := by
  simp [Decimal.isBodyChar]

/-- The digits of a body in front of its first dot, and the rest. -/
theorem body_cases (chars : ∀ c ∈ body, c.isDigit ∨ c = '.') :
    ∃ whole, (∀ c ∈ whole, c.isDigit) ∧
      (body = whole ∨ ∃ fraction, body = whole ++ '.' :: fraction) := by
  refine ⟨body.takeWhile Char.isDigit, List.all_eq_true.mp List.all_takeWhile, ?_⟩
  have joined := List.takeWhile_append_dropWhile (p := Char.isDigit) (l := body)
  cases rest : body.dropWhile Char.isDigit with
  | nil => exact .inl (by simpa [rest] using joined.symm)
  | cons c fraction =>
      right
      have member : c ∈ body := by
        rw [← joined, rest]
        simp
      have notDigit : c.isDigit = false := by
        have := List.head?_dropWhile_not Char.isDigit body
        simpa [rest] using this
      have dot : c = '.' := (chars c member).resolve_left (by simp [notDigit])
      exact ⟨fraction, by rw [← dot, ← rest, joined]⟩

section Shapes

variable {whole fraction : List Char}

theorem filter_digits (digits : ∀ c ∈ whole, c.isDigit) : whole.filter Char.isDigit = whole :=
  List.filter_eq_self.mpr digits

theorem ne_dot_of_isDigit {c : Char} (digit : c.isDigit = true) : c ≠ '.' := by
  rintro rfl
  cases digit

theorem count_dot_eq_zero (digits : ∀ c ∈ whole, c.isDigit) : whole.count '.' = 0 := by
  rw [List.count_eq_zero]
  intro member
  exact ne_dot_of_isDigit (digits _ member) rfl

theorem dropWhile_ne_dot (digits : ∀ c ∈ whole, c.isDigit) (rest : List Char) :
    (whole ++ rest).dropWhile (· != '.') = rest.dropWhile (· != '.') := by
  apply List.dropWhile_append_of_pos
  intro c member
  simpa using ne_dot_of_isDigit (digits c member)

theorem decimal_whole (digits : ∀ c ∈ whole, c.isDigit) (power : Int) :
    decimal whole power = ⟨Decimal.ofDigits whole, power⟩ := by
  have rest := dropWhile_ne_dot digits []
  rw [List.append_nil, List.dropWhile_nil] at rest
  simp [decimal, filter_digits digits, rest]

theorem decimal_dotted (digits : ∀ c ∈ whole, c.isDigit) (behind : ∀ c ∈ fraction, c.isDigit)
    (power : Int) : decimal (whole ++ '.' :: fraction) power =
      ⟨Decimal.ofDigits (whole ++ fraction), power - fraction.length⟩ := by
  have notDigit : Char.isDigit '.' = false := rfl
  simp [decimal, dropWhile_ne_dot digits, filter_digits digits, filter_digits behind, notDigit]

theorem wellFormed_whole_iff (digits : ∀ c ∈ whole, c.isDigit) : WellFormed whole ↔ whole ≠ [] := by
  constructor
  · rintro ⟨⟨c, member, _⟩, _⟩
    exact List.ne_nil_of_mem member
  · intro nonempty
    obtain ⟨c, rest, rfl⟩ := List.exists_cons_of_ne_nil nonempty
    refine ⟨⟨c, .head rest, digits c (.head rest)⟩, ?_⟩
    rw [count_dot_eq_zero digits]
    exact Nat.zero_le 1

theorem wellFormed_dotted_iff (digits : ∀ c ∈ whole, c.isDigit)
    (chars : ∀ c ∈ fraction, c.isDigit ∨ c = '.') :
    WellFormed (whole ++ '.' :: fraction) ↔
      (∀ c ∈ fraction, c.isDigit) ∧ whole ++ fraction ≠ [] := by
  have once : (whole ++ '.' :: fraction).count '.' = fraction.count '.' + 1 := by
    rw [List.count_append, count_dot_eq_zero digits, List.count_cons_self, Nat.zero_add]
  have noDot : fraction.count '.' = 0 ↔ ∀ c ∈ fraction, c.isDigit := by
    rw [List.count_eq_zero]
    constructor
    · intro absent c member
      exact (chars c member).resolve_right (fun dot => absent (dot ▸ member))
    · intro behind member
      exact ne_dot_of_isDigit (behind _ member) rfl
  rw [WellFormed, once, ← noDot]
  constructor
  · rintro ⟨⟨c, member, digit⟩, single⟩
    refine ⟨by omega, ?_⟩
    rcases List.mem_append.mp member with inside | behind
    · exact List.ne_nil_of_mem (List.mem_append_left _ inside)
    · rcases List.mem_cons.mp behind with rfl | behind
      · cases digit
      · exact List.ne_nil_of_mem (List.mem_append_right _ behind)
  · rintro ⟨none, nonempty⟩
    refine ⟨?_, by omega⟩
    obtain ⟨c, member⟩ := List.exists_mem_of_ne_nil _ nonempty
    rcases List.mem_append.mp member with inside | behind
    · exact ⟨c, List.mem_append_left _ inside, digits c inside⟩
    · exact ⟨c, List.mem_append_right _ (.tail _ behind), noDot.mp none c behind⟩

end Shapes

/-- A body is read exactly if it is well formed, and as the decimal that it writes. -/
theorem ofBody?_eq (chars : ∀ c ∈ body, c.isDigit ∨ c = '.') :
    (WellFormed body → Decimal.ofBody? body = some (decimal body 0)) ∧
      (¬ WellFormed body → Decimal.ofBody? body = none) := by
  obtain ⟨whole, digits, shape⟩ := body_cases chars
  rcases shape with rfl | ⟨fraction, rfl⟩
  · have inside := takeWhile_append_stop [] digits (by simp)
    have behind := dropWhile_append_stop [] digits (by simp)
    rw [List.append_nil] at inside behind
    rw [wellFormed_whole_iff digits, decimal_whole digits]
    simp only [Decimal.ofBody?, inside, behind]
    cases body <;> simp
  · have notDigit : Char.isDigit '.' = false := rfl
    have inside := takeWhile_append_stop ('.' :: fraction) digits (by simp [notDigit])
    have behind := dropWhile_append_stop ('.' :: fraction) digits (by simp [notDigit])
    have rest : ∀ c ∈ fraction, c.isDigit ∨ c = '.' := by
      intro c member
      exact chars c (List.mem_append_right _ (.tail _ member))
    rw [wellFormed_dotted_iff digits rest]
    have test : (fraction.all Char.isDigit && !(whole ++ fraction).isEmpty) = true ↔
        (∀ c ∈ fraction, c.isDigit) ∧ whole ++ fraction ≠ [] := by
      simp
    simp only [Decimal.ofBody?, inside, behind, ← test]
    constructor
    · intro passes
      have after := (test.mp passes).1
      rw [if_pos passes, decimal_dotted digits after, Int.zero_sub]
    · intro fails
      rw [if_neg fails]

theorem ExponentPart.chars {part : List Char} {power : Int} (h : ExponentPart part power) :
    ∀ c ∈ part, c.isDigit ∨ c ∈ ['e', 'E', '+', '-'] := by
  intro c member
  cases h with
  | absent => cases member
  | unsigned marked _ digits =>
      rcases List.mem_cons.mp member with rfl | digit
      · rcases marked with rfl | rfl <;> simp
      · exact .inl (digits c digit)
  | positive marked _ digits | negative marked _ digits =>
      rcases List.mem_cons.mp member with rfl | member
      · rcases marked with rfl | rfl <;> simp
      · rcases List.mem_cons.mp member with rfl | digit
        · simp
        · exact .inl (digits c digit)

theorem ofExponent?_eq (h : ExponentPart part power) : Decimal.ofExponent? part = some power := by
  cases h with
  | absent => rfl
  | @unsigned mark digits marked nonempty all =>
      obtain ⟨c, rest, rfl⟩ := List.exists_cons_of_ne_nil nonempty
      have digit := all c (.head rest)
      have number : Decimal.ofExponent?.natural? (c :: rest) =
          some (Decimal.ofDigits (c :: rest)) := by
        simpa [Decimal.ofExponent?.natural?] using all
      unfold Decimal.ofExponent?
      split <;> simp_all
  | @positive mark digits marked nonempty all =>
      have number : Decimal.ofExponent?.natural? digits = some (Decimal.ofDigits digits) := by
        simpa [Decimal.ofExponent?.natural?, nonempty] using all
      simp [Decimal.ofExponent?, number]
  | @negative mark digits marked nonempty all =>
      have number : Decimal.ofExponent?.natural? digits = some (Decimal.ofDigits digits) := by
        simpa [Decimal.ofExponent?.natural?, nonempty] using all
      simp [Decimal.ofExponent?, number]

theorem not_isBodyChar_of_exponent (h : ExponentPart part power) :
    ∀ c, part.head? = some c → Decimal.isBodyChar c = false := by
  intro c first
  cases h with
  | absent => simp at first
  | unsigned marked | positive marked | negative marked =>
      obtain rfl := Option.some.inj first
      rcases marked with rfl | rfl <;> rfl

/-- A numeral is cut between its body and its exponent part. -/
theorem Numeral.exists_part (h : Numeral w body power) :
    ∃ part, ExponentPart part power ∧ w.takeWhile Decimal.isBodyChar = body ∧
      w.dropWhile Decimal.isBodyChar = part := by
  cases h with
  | @mk body part power nonempty chars exponent =>
      have inside : ∀ c ∈ body, Decimal.isBodyChar c := by
        intro c member
        exact isBodyChar_iff.mpr (chars c member)
      have stop := not_isBodyChar_of_exponent exponent
      exact ⟨part, exponent, takeWhile_append_stop part inside stop,
        dropWhile_append_stop part inside stop⟩

theorem Numeral.chars (h : Numeral w body power) : ∀ c ∈ body, c.isDigit ∨ c = '.' := by
  cases h with
  | mk _ chars _ => exact chars

/-- A numeral is a number exactly if its body is well formed. -/
theorem ofLiteral?_eq (h : Numeral w body power) :
    (WellFormed body → Decimal.ofLiteral? w = some (decimal body power).lowest) ∧
      (¬ WellFormed body → Decimal.ofLiteral? w = none) := by
  obtain ⟨part, exponent, inside, behind⟩ := h.exists_part
  obtain ⟨reads, refuses⟩ := ofBody?_eq h.chars
  simp only [Decimal.ofLiteral?, inside, behind, ofExponent?_eq exponent]
  constructor
  · intro formed
    have shift : (decimal body 0).exponent + power = (decimal body power).exponent := by
      simp only [decimal]
      omega
    rw [reads formed]
    simp only [Option.bind_eq_bind, Option.bind_some, shift]
    rfl
  · intro malformed
    rw [refuses malformed]
    rfl

end Reckoner.Lexical
