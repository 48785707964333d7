import Reckoner.Numeral
import Reckoner.Proofs.Decimal.Shortest
import Reckoner.Proofs.Lexical.NumberText

/-!
# What the text of a number says

`Shows` says which text is the right one for a number, by what can be read from it: the sign, the
digits without a zero too many, and the number that the digits make up. That is the shortest decimal
for the number, or else its nearest multiple of the last place. The texts that are written are these
and no others.
-/

namespace Reckoner.Numeral

open Binary64 Decimal

-- Powers of natural numbers are the ones of the core library here, whatever else is imported.
attribute [local instance (high)] instPowNat

/-- Digits with no zero in front that could be left out. -/
structure Whole (ds : List Char) : Prop where
  nonempty : ds ≠ []
  digits : ∀ c ∈ ds, c.isDigit
  leading : ds.head? = some '0' → ds = ['0']

/-- A text writes `n` units of the last place, with so many places behind the point. -/
inductive Places : Nat → Nat → List Char → Prop
  | whole {ds : List Char} : Whole ds → Places (ofDigits ds) 0 ds
  | point {ds fraction : List Char} : Whole ds → fraction ≠ [] → (∀ c ∈ fraction, c.isDigit) →
      Places (ofDigits (ds ++ fraction)) fraction.length (ds ++ '.' :: fraction)

/-- What stands in front of the digits of a number. -/
def signText (x : Float) : List Char :=
  if isNegative x then ['-'] else []

/-- A text shows a number with a precision. -/
inductive Shows : Option Nat → Float → List Char → Prop
  | nan {precision : Option Nat} {x : Float} : x.isNaN = true → Shows precision x ['N', 'a', 'N']
  | infinite {precision : Option Nat} {x : Float} : x.isInf = true →
      Shows precision x (signText x ++ ['i', 'n', 'f'])
  | shortest {x : Float} {d : Decimal} {text : List Char} : x.isFinite = true →
      IsShortest x.abs d →
      Places (d.significand * 10 ^ d.exponent.toNat) (-d.exponent).toNat text →
      Shows none x (signText x ++ text)
  | rounded {places n : Nat} {x : Float} {text : List Char} : x.isFinite = true →
      NearestEven (|value x| * 10 ^ places) n → Places n places text →
      Shows (some places) x (signText x ++ text)

section Digits

variable {ds fraction : List Char} {n places : Nat}

theorem digitChar_of_isDigit {c : Char} (digit : c.isDigit) :
    ∃ n < 10, c = Nat.digitChar n ∧ c.toNat - '0'.toNat = n := by
  have bounds : 48 ≤ c.toNat ∧ c.toNat ≤ 57 := by
    rw [Char.isDigit, Bool.and_eq_true, decide_eq_true_eq, decide_eq_true_eq] at digit
    exact digit
  refine ⟨c.toNat - 48, by omega, ?_, rfl⟩
  apply Char.toNat_inj.mp
  rw [Nat.toNat_digitChar_of_lt_ten (by omega)]
  omega

/-- Digits behind a positive number are the last digits of what they make of it. -/
theorem toDigits_append (digits : ∀ c ∈ ds, c.isDigit) (pos : 0 < n) :
    Nat.toDigits 10 n ++ ds = Nat.toDigits 10 (Nat.ofDigitChars 10 ds n) := by
  induction ds generalizing n with
  | nil => rw [List.append_nil, Nat.ofDigitChars_nil]
  | cons c ds ih =>
      rw [List.forall_mem_cons] at digits
      obtain ⟨m, small, rfl, amount⟩ := digitChar_of_isDigit digits.1
      have next := Nat.toDigits_append_toDigits (b := 10) (by decide) pos small
      rw [Nat.toDigits_of_lt_base small] at next
      rw [Nat.ofDigitChars_cons, amount, ← ih digits.2 (by omega), ← next, List.append_assoc]
      rfl

theorem Whole.eq_digits (h : Whole ds) : Decimal.digits (ofDigits ds) = ds := by
  obtain ⟨nonempty, digits, leading⟩ := h
  cases ds with
  | nil => exact absurd rfl nonempty
  | cons c ds =>
      rw [List.forall_mem_cons] at digits
      obtain ⟨m, small, rfl, amount⟩ := digitChar_of_isDigit digits.1
      obtain rfl | pos := Nat.eq_zero_or_pos m
      · rw [show ds = [] from (List.cons.inj (leading rfl)).2]
        rfl
      · have all := toDigits_append digits.2 pos
        rw [Nat.toDigits_of_lt_base small] at all
        rw [ofDigits, Nat.ofDigitChars_cons, amount, Nat.mul_zero, Nat.zero_add]
        exact all.symm

theorem ofDigits_lt (digits : ∀ c ∈ ds, c.isDigit) : ofDigits ds < 10 ^ ds.length := by
  induction ds with
  | nil => exact Nat.one_pos
  | cons c ds ih =>
      rw [List.forall_mem_cons] at digits
      obtain ⟨m, small, rfl, amount⟩ := digitChar_of_isDigit digits.1
      have rest := ih digits.2
      have most : 10 ^ ds.length * m ≤ 10 ^ ds.length * 9 := Nat.mul_le_mul_left _ (by omega)
      rw [ofDigits] at rest
      rw [ofDigits, Nat.ofDigitChars_cons, amount, Nat.mul_zero, Nat.zero_add,
        Nat.ofDigitChars_eq_ofDigitChars_zero, List.length_cons, Nat.pow_succ]
      omega

/-- So many digits are determined by the number that they make up. -/
theorem fraction_eq (nonempty : fraction ≠ []) (digits : ∀ c ∈ fraction, c.isDigit) :
    (Decimal.digits (ofDigits fraction)).leftpad fraction.length '0' = fraction := by
  -- With a one in front both are the digits of one number.
  have own := toDigits_append digits Nat.one_pos
  have padded := toDigits_append
    (Lexical.isDigit_leftpad (ofDigits fraction) fraction.length) Nat.one_pos
  rw [Nat.ofDigitChars_eq_ofDigitChars_zero] at own padded
  rw [← ofDigits, Lexical.ofDigits_leftpad, Lexical.length_leftpad_digits
    (List.length_pos_of_ne_nil nonempty) (ofDigits_lt digits)] at padded
  rw [← ofDigits] at own
  exact List.append_cancel_left (padded.trans own.symm)

theorem whole_digits (n : Nat) : Whole (Decimal.digits n) where
  nonempty := Nat.toDigits_ne_nil
  digits := Lexical.isDigit_digits n
  leading first := by
    obtain rfl | pos := Nat.eq_zero_or_pos n
    · rfl
    · obtain ⟨rest, cut⟩ := List.head?_eq_some_iff.mp first
      have digits := Lexical.isDigit_digits n
      have lower := pow_length_digits_le pos
      have number := Lexical.ofDigits_digits n
      rw [cut, List.forall_mem_cons] at digits
      rw [cut, ofDigits, Nat.ofDigitChars_cons] at number
      have upper : n < 10 ^ rest.length := number ▸ ofDigits_lt digits.2
      rw [cut, List.length_cons, Nat.add_sub_cancel] at lower
      omega

/-- The texts with a fixed number of places are the ones that are written. -/
theorem places_iff {text : List Char} : Places n places text ↔ text = withPlaces n places := by
  constructor
  · intro h
    cases h with
    | whole whole =>
        rw [withPlaces, if_pos rfl, Nat.pow_zero, Nat.div_one, whole.eq_digits]
    | @point ds fraction whole nonempty digits =>
        have small := ofDigits_lt digits
        have length : fraction.length ≠ 0 := by simpa using nonempty
        rw [withPlaces, if_neg length, Lexical.ofDigits_append, Nat.mul_add_div (by omega),
          Nat.mul_add_mod, Nat.div_eq_of_lt small, Nat.mod_eq_of_lt small, Nat.add_zero,
          whole.eq_digits, fraction_eq nonempty digits]
  · rintro rfl
    by_cases none : places = 0
    · subst none
      have whole := Places.whole (whole_digits n)
      rw [Lexical.ofDigits_digits] at whole
      rwa [withPlaces, if_pos rfl, Nat.pow_zero, Nat.div_one]
    · have length := Lexical.length_leftpad_digits (Nat.pos_of_ne_zero none)
        (Nat.mod_lt n (Nat.pow_pos (show 0 < 10 by decide)))
      have nonempty : (Decimal.digits (n % 10 ^ places)).leftpad places '0' ≠ [] :=
        List.ne_nil_of_length_pos (by omega)
      have point := Places.point (whole_digits (n / 10 ^ places)) nonempty
        (Lexical.isDigit_leftpad _ places)
      rw [Lexical.ofDigits_append, Lexical.ofDigits_digits, Lexical.ofDigits_leftpad, length,
        Nat.div_add_mod] at point
      rwa [withPlaces, if_neg none]

end Digits

section Shows

variable {x : Float} {precision : Option Nat} {places : Nat} {text text' : List Char}

theorem written_cases (body : Float → List Char) (x : Float) :
    x.isNaN = true ∧ written body x = ['N', 'a', 'N'] ∨
      x.isInf = true ∧ written body x = signText x ++ ['i', 'n', 'f'] ∨
      x.isFinite = true ∧ written body x = signText x ++ body x.abs := by
  unfold written signText
  cases nan : x.isNaN with
  | true => exact .inl ⟨rfl, rfl⟩
  | false =>
      right
      cases inf : x.isInf with
      | true => exact .inl ⟨rfl, by cases isNegative x <;> rfl⟩
      | false =>
          right
          rw [isFinite_eq, nan, inf]
          exact ⟨rfl, by cases isNegative x <;> rfl⟩

theorem positional_eq (d : Decimal) :
    d.positional = withPlaces (d.significand * 10 ^ d.exponent.toNat) (-d.exponent).toNat := by
  unfold positional
  split
  · rw [show d.exponent.toNat = 0 by omega, show (-d.exponent).toNat = d.exponent.natAbs by omega,
      Nat.pow_zero, Nat.mul_one]
  · rw [show d.exponent.toNat = d.exponent.natAbs by omega,
      show (-d.exponent).toNat = 0 by omega]

theorem shows_plain (x : Float) : Shows none x (plain x).toList := by
  rw [plain, String.toList_ofList]
  obtain ⟨nan, text⟩ | ⟨inf, text⟩ | ⟨finite, text⟩ :=
    written_cases (fun y => (shortest y).positional) x <;> rw [text]
  · exact .nan nan
  · exact .infinite inf
  · obtain ⟨finite', nonnegative, _⟩ := magnitude_abs finite
    exact .shortest finite (isShortest_shortest finite' nonnegative)
      (places_iff.mpr (positional_eq _))

/-- A number is rounded to its places exactly. -/
theorem nearestEven_roundTo (finite : x.isFinite = true) (places : Nat) :
    NearestEven (|value x| * 10 ^ places) (roundTo (magnitude x.abs) (-places)) := by
  obtain ⟨_, _, number⟩ := magnitude_abs finite
  obtain ⟨divisor, scaled⟩ := scaleRatio_eq (magnitude x.abs) (-places)
  have nearest := nearestEven_roundDiv (scaleRatio (magnitude x.abs).ratio (-places)).1 divisor
  rwa [scaled, number, zpow_neg, div_inv_eq_mul, zpow_natCast] at nearest

theorem shows_fixed {text : String} (written : fixed? places x = some text) :
    Shows (some places) x text.toList := by
  unfold fixed? at written
  split at written
  · obtain rfl := Option.some.inj written
    rw [String.toList_ofList]
    obtain ⟨nan, text⟩ | ⟨inf, text⟩ | ⟨finite, text⟩ := written_cases
      (fun y => withPlaces (roundTo (magnitude y) (-places)) places) x <;> rw [text]
    · exact .nan nan
    · exact .infinite inf
    · exact .rounded finite (nearestEven_roundTo finite places) (places_iff.mpr rfl)
  · cases written

/-- A number is shown by one text only. -/
theorem Shows.unique (h : Shows precision x text) (h' : Shows precision x text') :
    text = text' := by
  have kinds := isFinite_eq x
  have apart := isNaN_of_isInf (x := x)
  cases h with
  | nan | infinite => cases h' <;> first | rfl | simp_all
  | shortest _ least text =>
      cases h' with
      | shortest _ least' text' =>
          rw [least.unique least', places_iff] at text
          rw [places_iff] at text'
          rw [text, text']
      | _ => simp_all
  | rounded _ nearest text =>
      cases h' with
      | rounded _ nearest' text' =>
          rw [nearest.unique nearest', places_iff] at text
          rw [places_iff] at text'
          rw [text, text']
      | _ => simp_all

theorem plain_eq_iff {text : String} : plain x = text ↔ Shows none x text.toList :=
  ⟨fun same => same ▸ shows_plain x,
    fun shown => String.toList_injective ((shows_plain x).unique shown)⟩

theorem fixed?_eq_none_iff : fixed? places x = none ↔ ¬ places ≤ 65535 := by
  rw [fixed?, maxPlaces]
  split
  next bound => simp [bound]
  next above => simp [above]

/-- A text with a fixed number of places is written if there can be that many places, and it is the
one that shows the number. -/
theorem fixed?_eq_some_iff {text : String} : fixed? places x = some text ↔
    places ≤ 65535 ∧ Shows (some places) x text.toList := by
  constructor
  · intro written
    refine ⟨?_, shows_fixed written⟩
    by_contra above
    rw [show fixed? places x = none from if_neg above] at written
    cases written
  · rintro ⟨bound, shown⟩
    obtain ⟨own, written⟩ : ∃ own, fixed? places x = some own := ⟨_, if_pos bound⟩
    rw [written, Option.some.injEq]
    exact String.toList_injective ((shows_fixed written).unique shown)

end Shows

end Reckoner.Numeral
