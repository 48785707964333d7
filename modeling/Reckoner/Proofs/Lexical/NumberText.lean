import Reckoner.Proofs.Decimal.Shortest
import Reckoner.Proofs.Lexical.Numeral

/-!
# The text of a number is a numeral

A number is written with its digits and at most one dot between them, and never with an exponent.
Such a text is a numeral that is its own body, and it writes the decimal that it was made from.
-/

namespace Reckoner.Lexical

-- Powers of natural numbers are the ones of the core library here, whatever else is imported.
attribute [local instance (high)] instPowNat

section Digits

variable (n places : Nat)

theorem isDigit_digits : ∀ c ∈ Decimal.digits n, c.isDigit :=
  fun _ member => Nat.isDigit_of_mem_toDigits (by decide) (by decide) member

theorem ofDigits_digits : Decimal.ofDigits (Decimal.digits n) = n :=
  Nat.ofDigitChars_toDigits (by decide) (by decide)

theorem ofDigits_append (whole fraction : List Char) :
    Decimal.ofDigits (whole ++ fraction) =
      10 ^ fraction.length * Decimal.ofDigits whole + Decimal.ofDigits fraction :=
  (Nat.ofDigitChars_append 0).trans Nat.ofDigitChars_eq_ofDigitChars_zero

theorem isDigit_leftpad : ∀ c ∈ (Decimal.digits n).leftpad places '0', c.isDigit := by
  intro c member
  rcases List.mem_append.mp member with zero | digit
  · obtain rfl := List.eq_of_mem_replicate zero
    rfl
  · exact isDigit_digits n c digit

theorem ofDigits_leftpad : Decimal.ofDigits ((Decimal.digits n).leftpad places '0') = n := by
  rw [List.leftpad, ofDigits_append, ofDigits_digits, Decimal.ofDigits,
    Nat.ofDigitChars_replicate_zero, Nat.mul_zero, Nat.mul_zero, Nat.zero_add]

theorem length_leftpad_digits {n places : Nat} (pos : 0 < places) (bounded : n < 10 ^ places) :
    ((Decimal.digits n).leftpad places '0').length = places := by
  have short : (Decimal.digits n).length ≤ places :=
    (Nat.length_toDigits_le_iff (by decide) pos).mpr bounded
  rw [List.length_leftpad]
  omega

end Digits

section Places

/-- A number with a fixed number of places is read as that number. -/
theorem numeral_withPlaces (n places : Nat) :
    let w := Decimal.withPlaces n places
    Numeral w w 0 ∧ WellFormed w ∧ decimal w 0 = ⟨n, -places⟩ := by
  intro w
  have whole := isDigit_digits (n / 10 ^ places)
  have nonempty : Decimal.digits (n / 10 ^ places) ≠ [] := Nat.toDigits_ne_nil
  have self : ∀ {w : List Char}, w ≠ [] → (∀ c ∈ w, c.isDigit ∨ c = '.') → Numeral w w 0 := by
    intro w nonempty chars
    have numeral := Numeral.mk nonempty chars .absent
    rwa [List.append_nil] at numeral
  by_cases none : places = 0
  · subst none
    have written : w = Decimal.digits n := by simp [w, Decimal.withPlaces]
    rw [Nat.pow_zero, Nat.div_one] at whole nonempty
    rw [written, wellFormed_whole_iff whole, decimal_whole whole, ofDigits_digits]
    exact ⟨self nonempty fun c member => .inl (whole c member), nonempty, rfl⟩
  · have fraction := isDigit_leftpad (n % 10 ^ places) places
    have written : w = Decimal.digits (n / 10 ^ places) ++
        '.' :: (Decimal.digits (n % 10 ^ places)).leftpad places '0' := if_neg none
    have length := length_leftpad_digits (Nat.pos_of_ne_zero none)
      (Nat.mod_lt n (Nat.pow_pos (show 0 < 10 by decide)))
    refine ⟨?_, ?_, ?_⟩
    · apply self (by simp [written])
      intro c member
      rw [written] at member
      rcases List.mem_append.mp member with inside | behind
      · exact .inl (whole c inside)
      · rcases List.mem_cons.mp behind with dot | behind
        · exact .inr dot
        · exact .inl (fraction c behind)
    · rw [written, wellFormed_dotted_iff whole fun c member => .inl (fraction c member)]
      exact ⟨fraction, List.append_ne_nil_of_left_ne_nil nonempty _⟩
    · rw [written, decimal_dotted whole fraction, ofDigits_append, ofDigits_digits,
        ofDigits_leftpad, length, Nat.div_add_mod, Int.zero_sub]

/-- A decimal in positional notation is read as that decimal, up to zeros at its end. -/
theorem numeral_positional (d : Decimal) :
    let w := d.positional
    Numeral w w 0 ∧ WellFormed w ∧ (decimal w 0).lowest = d.lowest := by
  intro w
  by_cases negative : d.exponent < 0
  · have written : w = Decimal.withPlaces d.significand d.exponent.natAbs := if_pos negative
    obtain ⟨numeral, formed, reads⟩ := numeral_withPlaces d.significand d.exponent.natAbs
    have exponent : -(d.exponent.natAbs : Int) = d.exponent := by omega
    rw [written, reads, exponent]
    exact ⟨numeral, formed, rfl⟩
  · have written : w = Decimal.withPlaces (d.significand * 10 ^ d.exponent.natAbs) 0 :=
      if_neg negative
    obtain ⟨numeral, formed, reads⟩ :=
      numeral_withPlaces (d.significand * 10 ^ d.exponent.natAbs) 0
    have exponent : -((0 : Nat) : Int) + d.exponent.natAbs = d.exponent := by omega
    rw [written, reads, Decimal.lowest_scale, exponent]
    exact ⟨numeral, formed, rfl⟩

end Places

variable {x : Float}

/-- The text of a finite number without a sign is read as that number. -/
theorem reads_plain (finite : x.isFinite = true) (nonnegative : Binary64.isNegative x = false) :
    Reads (Numeral.plain x).toList (.ok (.number x)) := by
  have ordinary := Binary64.isFinite_eq x
  rw [finite, Bool.true_eq, Bool.not_eq_true', Bool.or_eq_false_iff] at ordinary
  obtain ⟨nan, inf⟩ := ordinary
  have abs : x.abs = x :=
    Binary64.abs_of_sign (Binary64.sign?_eq_positive_iff.mpr ⟨nan, nonnegative⟩)
  have text : (Numeral.plain x).toList = (Decimal.shortest x).positional := by
    rw [Numeral.plain, String.toList_ofList]
    simp only [Numeral.written, nan, inf, abs, nonnegative]
    rfl
  obtain ⟨numeral, formed, reads⟩ := numeral_positional (Decimal.shortest x)
  have shortest := Decimal.isShortest_shortest finite nonnegative
  have back : (Decimal.shortest x).lowest.toFloat = x :=
    shortest.lowest.lowest_eq.symm ▸ shortest.reads
  have number := Reads.number numeral formed
  rwa [reads, back, ← text] at number

end Reckoner.Lexical
