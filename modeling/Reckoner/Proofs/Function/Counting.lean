import Reckoner.Proofs.Binary64.Natural
import Reckoner.Proofs.Function.Standard

/-!
# Where the counting functions give a number

The numbers of selections are quotients of factorials, and each factorial is infinite by itself once
its argument is above `maxFactorial`. A quotient of two infinite ones is not a number, although the
number of selections may be small: `permutation[171, 0]` would be `1`. The results that are numbers
are exactly those where no divisor is infinite.
-/

namespace Reckoner

open Float.Model (Format UnpackedFloat)
open Float.Model.UnpackedFloat
open Binary64 (sign? sign?_unpack_pack)

-- Powers of natural numbers are the ones of the core library here, whatever else is imported.
attribute [local instance (high)] instPowNat

namespace Binary64

section Quotients

variable {x y : Float}

/-- The positive finite doubles. -/
def IsPositive (x : Float) : Prop :=
  ∃ m e pos, x.toModel.unpack = .finite .positive m e pos

theorem isPositive_of_tests (finite : x.isFinite = true) (nonnegative : isNegative x = false)
    (nonzero : (magnitude x).significand ≠ 0) : IsPositive x := by
  obtain ⟨_, zero⟩ | ⟨pos, unpacked, _⟩ := unpack_eq_magnitude finite nonnegative
  · rw [zero] at nonzero
    exact absurd rfl nonzero
  · exact ⟨_, _, pos, unpacked⟩

theorem IsPositive.sign? (h : IsPositive x) : sign? x.toModel.unpack = some .positive := by
  obtain ⟨m, e, pos, unpacked⟩ := h
  rw [unpacked]
  rfl

/-- Division by a positive finite number keeps a positive sign, and with it a number. -/
theorem sign?_div_of_isPositive (hx : sign? x.toModel.unpack = some .positive)
    (hy : IsPositive y) : sign? (x / y).toModel.unpack = some .positive := by
  obtain ⟨m, e, pos, unpacked⟩ := hy
  rw [div_eq_pack, unpacked]
  exact sign?_unpack_pack (Decimal.sign?_div hx)

theorem infinity_div (h : IsPositive y) : 1 / 0 / y = 1 / 0 := by
  obtain ⟨m, e, pos, unpacked⟩ := h
  rw [div_eq_pack, unpacked, unpack_one_div_zero]
  exact one_div_zero.symm

theorem isNaN_infinity_div_infinity : (1 / 0 / (1 / 0) : Float).isNaN = true := by
  rw [div_eq_pack, unpack_one_div_zero]
  rfl

theorem isNaN_div (h : x.isNaN = true) (y : Float) : (x / y).isNaN = true := by
  have quotient : UnpackedFloat.div Format.binary64 .notANumber y.toModel.unpack =
      .notANumber := by
    cases y.toModel.unpack <;> rfl
  rw [div_eq_pack, unpack_of_isNaN h, quotient]
  rfl

end Quotients

end Binary64

namespace Numeric

open Binary64

section Factorial

variable {n : Nat}

/-- The factorial of a natural number in doubles. -/
def natFactorial (n : Nat) : Float :=
  if n ≤ maxFactorial then product n else 1 / 0

theorem factorial_ofNat (bounded : n ≤ 2 ^ 53) :
    factorial (Float.ofNat n) = .ok (natFactorial n) := by
  have negative : ¬ Float.ofNat n < 0 := by
    have order : Float.ofNat n < Float.ofNat 0 ↔ n < 0 := ofNat_lt_iff bounded (Nat.zero_le _)
    exact fun less => Nat.not_lt_zero n (order.mp less)
  have large : Float.ofNat n > Float.ofNat maxFactorial ↔ maxFactorial < n :=
    ofNat_lt_iff (by decide) bounded
  rw [factorial, isNaN_ofNat bounded, if_neg Bool.false_ne_true, if_pos (isInteger_ofNat bounded),
    if_neg negative, floor_ofNat bounded, natFactorial]
  by_cases small : n ≤ maxFactorial
  · rw [if_neg (large.not.mpr (Nat.not_lt.mpr small)), if_pos small]
  · rw [if_pos (large.mpr (Nat.not_le.mp small)), if_neg small]

theorem foldl_mem_scanl {α β : Type} (f : β → α → β) (b : β) (xs ys : List α) :
    xs.foldl f b ∈ (xs ++ ys).scanl f b := by
  have index : xs.length < ((xs ++ ys).scanl f b).length := by
    rw [List.length_scanl, List.length_append]
    omega
  have found := List.getElem_scanl index
  rw [List.take_left] at found
  exact found ▸ List.getElem_mem index

/-- No product on the way to the largest factorial is too large. -/
theorem products_positive :
    ∀ p ∈ (List.range' 2 (maxFactorial - 1)).scanl (fun p k => p * Float.ofNat k) 1,
      p.isFinite = true ∧ isNegative p = false ∧ (magnitude p).significand ≠ 0 := by
  decide +kernel

theorem isPositive_product (small : n ≤ maxFactorial) : IsPositive (product n) := by
  have factors : List.range' 2 (maxFactorial - 1) =
      List.range' 2 (n - 1) ++ List.range' (2 + 1 * (n - 1)) (maxFactorial - 1 - (n - 1)) := by
    rw [List.range'_append]
    congr 1
    omega
  have member : product n ∈
      (List.range' 2 (maxFactorial - 1)).scanl (fun p k => p * Float.ofNat k) 1 := by
    rw [factors]
    exact foldl_mem_scanl _ _ _ _
  obtain ⟨finite, nonnegative, nonzero⟩ := products_positive (product n) member
  exact isPositive_of_tests finite nonnegative nonzero

theorem isPositive_natFactorial (small : n ≤ maxFactorial) : IsPositive (natFactorial n) := by
  rw [natFactorial, if_pos small]
  exact isPositive_product small

theorem natFactorial_of_large (large : maxFactorial < n) : natFactorial n = 1 / 0 :=
  if_neg (Nat.not_le.mpr large)

theorem sign?_natFactorial (n : Nat) :
    sign? (natFactorial n).toModel.unpack = some .positive := by
  obtain large | small := Nat.lt_or_ge maxFactorial n
  · rw [natFactorial_of_large large, unpack_one_div_zero]
    rfl
  · exact (isPositive_natFactorial small).sign?

end Factorial

end Numeric

namespace Builtin

open Binary64 Numeric

section Counts

variable {n k : Nat}

theorem selections_ofNat (le : k ≤ n) (bounded : n ≤ 2 ^ 53) :
    selections (Float.ofNat n) (Float.ofNat k) =
      .ok (natFactorial n / natFactorial (n - k)) := by
  rw [selections, ofNat_sub le bounded, factorial_ofNat bounded,
    factorial_ofNat ((Nat.sub_le n k).trans bounded)]
  rfl

theorem choices_ofNat (le : k ≤ n) (bounded : n ≤ 2 ^ 53) :
    choices (Float.ofNat n) (Float.ofNat k) =
      .ok (natFactorial n / natFactorial (n - k) / natFactorial k) := by
  rw [choices, selections_ofNat le bounded, factorial_ofNat (le.trans bounded)]
  rfl

/-- A count is a number if no divisor is infinite. -/
theorem sign?_selections (n : Nat) (small : n - k ≤ maxFactorial) :
    sign? (natFactorial n / natFactorial (n - k)).toModel.unpack = some .positive :=
  sign?_div_of_isPositive (sign?_natFactorial n) (isPositive_natFactorial small)

theorem isNaN_selections_iff (n k : Nat) :
    (natFactorial n / natFactorial (n - k)).isNaN = true ↔ maxFactorial < n - k := by
  obtain large | small := Nat.lt_or_ge maxFactorial (n - k)
  · have all : maxFactorial < n := Nat.lt_of_lt_of_le large (Nat.sub_le n k)
    rw [natFactorial_of_large large, natFactorial_of_large all]
    exact iff_of_true isNaN_infinity_div_infinity large
  · have number := (sign?_eq_positive_iff.mp (sign?_selections n small)).1
    rw [number]
    exact iff_of_false Bool.false_ne_true (Nat.not_lt.mpr small)

theorem isNaN_choices_iff (le : k ≤ n) :
    (natFactorial n / natFactorial (n - k) / natFactorial k).isNaN = true ↔
      maxFactorial < n - k ∨ maxFactorial < k := by
  obtain large | small := Nat.lt_or_ge maxFactorial (n - k)
  · have ordered := (isNaN_selections_iff n k).mpr large
    exact iff_of_true (isNaN_div ordered _) (.inl large)
  · obtain many | few := Nat.lt_or_ge maxFactorial k
    · -- The ordered selections are already infinite, and so are the orders of one selection.
      have all := many.trans_le le
      rw [natFactorial_of_large many, natFactorial_of_large all,
        infinity_div (isPositive_natFactorial small)]
      exact iff_of_true isNaN_infinity_div_infinity (.inr many)
    · have sign := sign?_div_of_isPositive (sign?_selections n small) (isPositive_natFactorial few)
      rw [(sign?_eq_positive_iff.mp sign).1]
      exact iff_of_false Bool.false_ne_true (by omega)

end Counts

end Builtin

/-- For natural numbers the counting functions always give a result. It is not a number exactly
where one of the factorials divided by is infinite. -/
theorem counting_isNaN_iff (n k : Nat) (le : k ≤ n) (bounded : n ≤ 2 ^ 53) :
    (∃ x, Library.standard.call "permutation" [Float.ofNat n, Float.ofNat k] = .ok x ∧
      (x.isNaN = true ↔ Numeric.maxFactorial < n - k)) ∧
    ∃ x, Library.standard.call "combination" [Float.ofNat n, Float.ofNat k] = .ok x ∧
      (x.isNaN = true ↔ Numeric.maxFactorial < n - k ∨ Numeric.maxFactorial < k) := by
  have permutation : Library.standard.call "permutation" [Float.ofNat n, Float.ofNat k] =
      Builtin.selections (Float.ofNat n) (Float.ofNat k) :=
    Library.call_standard (b := .permutation) rfl
  have combination : Library.standard.call "combination" [Float.ofNat n, Float.ofNat k] =
      Builtin.choices (Float.ofNat n) (Float.ofNat k) :=
    Library.call_standard (b := .combination) rfl
  rw [permutation, combination, Builtin.selections_ofNat le bounded,
    Builtin.choices_ofNat le bounded]
  exact ⟨⟨_, rfl, Builtin.isNaN_selections_iff n k⟩, ⟨_, rfl, Builtin.isNaN_choices_iff le⟩⟩

/-- With 170 of 340 the result is infinite, and with 170 of 341 it is not a number. -/
theorem counting_isNaN_iff_border :
    (170 ≤ 340 ∧ 340 ≤ 2 ^ 53 ∧
      ∃ x, Library.standard.call "combination" [Float.ofNat 340, Float.ofNat 170] = .ok x ∧
        x.isNaN = false) ∧
    170 ≤ 341 ∧ 341 ≤ 2 ^ 53 ∧
      ∃ x, Library.standard.call "combination" [Float.ofNat 341, Float.ofNat 170] = .ok x ∧
        x.isNaN = true := by
  obtain ⟨_, x, counted, number⟩ := counting_isNaN_iff 340 170 (by decide) (by decide)
  obtain ⟨_, y, uncounted, nan⟩ := counting_isNaN_iff 341 170 (by decide) (by decide)
  refine ⟨⟨by decide, by decide, x, counted, ?_⟩, by decide, by decide, y, uncounted, ?_⟩
  · exact eq_false_of_ne_true (number.not.mpr (by decide))
  · exact nan.mpr (by decide)

/-- There is one selection of nothing out of 171, but the quotient of factorials is no number. -/
theorem permutation_not_a_number : 0 ≤ 171 ∧ 171 ≤ 2 ^ 53 ∧
    ∃ x, Library.standard.call "permutation" [Float.ofNat 171, Float.ofNat 0] = .ok x ∧
      x.isNaN = true := by
  refine ⟨by decide, by decide, 1 / 0 / (1 / 0), ?_, by decide +kernel⟩
  exact Failure.eq_ok_of_toOption (by decide +kernel)

end Reckoner
