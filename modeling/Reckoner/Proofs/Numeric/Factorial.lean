import Reckoner.Numeric.Gamma
import Reckoner.Proofs.Binary64.Fraction

/-!
# The factorial ends for every double

The factorial is a loop that counts in doubles, and Gamma calls itself for arguments below `1/2`.
Both are written down here as relations, step by step and with the number of steps, so that nothing
is assumed about their end. The loop is entered only with a whole number up to `maxFactorial`, where
the counter is exact; the argument that Gamma calls itself with is never below `1/2`, as the
difference is not rounded below it.
-/

namespace Reckoner.Numeric

open Binary64

-- Powers of natural numbers are the ones of the core library here, whatever else is imported.
attribute [local instance (high)] instPowNat

/-- The loop of the factorial: as long as the counter `k` is not above `x`, the product `p` is
multiplied by it, and one is added to it. The loop ends with `y` after `n` multiplications. -/
inductive Multiplies (x : Float) : Float → Float → Float → Nat → Prop
  | stop {p k : Float} : ¬ k ≤ x → Multiplies x p k p 0
  | step {p k y : Float} {n : Nat} : k ≤ x → Multiplies x (p * k) (k + 1) y n →
      Multiplies x p k y (n + 1)

/-- An evaluation of Gamma with its value and the number of times it calls itself. -/
inductive GammaRun (lib : Elementary) : Float → Float → Nat → Prop
  | reflect {z v : Float} {n : Nat} : z < 0.5 → GammaRun lib (1 - z) v n →
      GammaRun lib z (pi / (lib.sine (pi * z) * v)) (n + 1)
  | series {z : Float} : ¬ z < 0.5 → GammaRun lib z (lanczos lib z) 0

/-- An evaluation of the factorial with its outcome and the number of multiplications of its loop.
Whether `x` is an integer is seen from its fractional part. -/
inductive FactorialRun (x : Float) : Except Failure Float → Nat → Prop
  | nan : x.isNaN = true → FactorialRun x (.error (.unsupportedOperand .factorialOfNaN)) 0
  | pole : x.isNaN = false → (fract x == 0) = true → x < 0 →
      FactorialRun x (.error (.unsupportedOperand (.factorialOfNegative x))) 0
  | large : x.isNaN = false → (fract x == 0) = true → ¬ x < 0 → x > Float.ofNat maxFactorial →
      FactorialRun x (.ok (1 / 0)) 0
  | product {y : Float} {n : Nat} : x.isNaN = false → (fract x == 0) = true → ¬ x < 0 →
      ¬ x > Float.ofNat maxFactorial → Multiplies x 1 2 y n → FactorialRun x (.ok y) n
  | gamma {y : Float} {n : Nat} : x.isNaN = false → (fract x == 0) = false →
      GammaRun .platform (x + 1) y n → FactorialRun x (.ok y) 0

section Reflection

variable {lib : Elementary} {z v v' : Float} {n n' : Nat}

theorem atLeast_one_sub (less : z < 0.5) : AtLeast .positive (-1) (1 - z).toModel.unpack := by
  obtain infinite | finite := unpack_of_lt less hasValue_half
  · have result : (1 - z).toModel.unpack = .infinity .positive := by
      rw [sub_eq_pack, infinite, sub_negative_infinity hasValue_one]
      exact unpack_pack_infinity .positive
    rw [result]
    exact .infinity
  · have small := ((hasValue finite).lt_iff hasValue_half).mp less
    apply (roundsTo_sub hasValue_one (hasValue finite)).atLeast .positive (-1) (by decide)
    rw [signed]
    norm_num
    linarith

/-- The argument that Gamma calls itself with is not below `1/2`: the difference is more than that,
and rounding does not take it below. -/
theorem not_one_sub_lt (less : z < 0.5) : ¬ 1 - z < 0.5 :=
  not_lt_of_atLeast (atLeast_one_sub less) hasValue_half (by norm_num)

theorem GammaRun.unique (h : GammaRun lib z v n) (h' : GammaRun lib z v' n') :
    v = v' ∧ n = n' := by
  induction h generalizing v' n' with
  | reflect less run ih =>
      cases h' with
      | reflect _ run' =>
          obtain ⟨rfl, rfl⟩ := ih run'
          exact ⟨rfl, rfl⟩
      | series notLess => exact absurd less notLess
  | series notLess =>
      cases h' with
      | reflect less _ => exact absurd less notLess
      | series => exact ⟨rfl, rfl⟩

/-- Gamma ends for every argument and calls itself at most once. -/
theorem exists_gammaRun (lib : Elementary) (z : Float) :
    ∃ n ≤ 1, GammaRun lib z (gammaWith lib z) n := by
  by_cases less : z < 0.5
  · rw [gammaWith, if_pos less]
    exact ⟨1, Nat.le_refl 1, .reflect less (.series (not_one_sub_lt less))⟩
  · rw [gammaWith, if_neg less]
    exact ⟨0, Nat.zero_le 1, .series less⟩

end Reflection

section Loop

variable {x p k y y' : Float} {n n' : Nat}

theorem Multiplies.unique (h : Multiplies x p k y n) (h' : Multiplies x p k y' n') :
    y = y' ∧ n = n' := by
  induction h generalizing y' n' with
  | stop above =>
      cases h' with
      | stop => exact ⟨rfl, rfl⟩
      | step below _ => exact absurd below above
  | step below _ ih =>
      cases h' with
      | stop above => exact absurd below above
      | step _ rest =>
          obtain ⟨rfl, rfl⟩ := ih rest
          exact ⟨rfl, rfl⟩

/-- Up to a whole number the counter is exact, and the loop multiplies by the numbers up to it. -/
theorem multiplies_foldl (finite : x.isFinite = true) {bound : Nat} (whole : value x = bound)
    (small : bound < 2 ^ 53) (i count : Nat) (pos : 0 < i) (stops : i + count = bound + 1)
    (p : Float) :
    Multiplies x p (Float.ofNat i)
      ((List.range' i count).foldl (fun p k => p * Float.ofNat k) p) count := by
  have order (i : Nat) (le : i ≤ 2 ^ 53) : Float.ofNat i ≤ x ↔ i ≤ bound := by
    rw [(hasValue_ofNat le).le_iff (hasValue finite), whole, Nat.cast_le]
  induction count generalizing i p with
  | zero => exact .stop (by rw [order i (by omega)]; omega)
  | succ count ih =>
      have next : Float.ofNat i + 1 = Float.ofNat (i + 1) :=
        ofNat_add (k := 1) pos Nat.one_pos (by omega)
      have rest := ih (i + 1) (Nat.succ_pos i) (by omega) (p * Float.ofNat i)
      rw [← next] at rest
      exact .step ((order i (by omega)).mpr (by omega)) rest

/-- The loop from `2` up to a whole number gives the product, with one multiplication for each
factor. -/
theorem multiplies_product (finite : x.isFinite = true) {bound : Nat} (whole : value x = bound)
    (small : bound < 2 ^ 53) : Multiplies x 1 2 (product bound) (bound - 1) := by
  obtain rfl | pos := Nat.eq_zero_or_pos bound
  · have above : ¬ Float.ofNat 2 ≤ x := by
      rw [(hasValue_ofNat (by decide)).le_iff (hasValue finite), whole]
      norm_num
    exact .stop above
  · exact multiplies_foldl finite whole small 2 (bound - 1) Nat.two_pos (by omega) 1

end Loop

section Factorial

variable {x : Float} {outcome outcome' : Except Failure Float} {n n' : Nat}

theorem FactorialRun.unique (h : FactorialRun x outcome n) (h' : FactorialRun x outcome' n') :
    outcome = outcome' ∧ n = n' := by
  -- The tests of two different branches exclude each other.
  cases h with
  | nan | pole | large => cases h' <;> simp_all
  | product _ _ _ _ run =>
      cases h' with
      | product _ _ _ _ run' =>
          obtain ⟨rfl, rfl⟩ := run.unique run'
          exact ⟨rfl, rfl⟩
      | nan | pole | large | gamma => simp_all
  | gamma _ _ run =>
      cases h' with
      | gamma _ _ run' =>
          obtain ⟨rfl, _⟩ := run.unique run'
          exact ⟨rfl, rfl⟩
      | nan | pole | large | product => simp_all

theorem value_eq_floor (whole : isInteger x = true) (nonnegative : ¬ x < 0) :
    x.isFinite = true ∧ value x = (magnitude x).floor := by
  have finite := (isInteger_iff.mp whole).1
  have nonneg : 0 ≤ value x := not_lt.mp ((lt_zero_iff finite).not.mp nonnegative)
  rw [isInteger, finite, Bool.true_and] at whole
  rw [← abs_of_nonneg nonneg, abs_value]
  exact ⟨finite, Magnitude.value_eq_floor_iff.mpr whole⟩

/-- The factorial ends for every double, after at most 169 multiplications. -/
theorem exists_factorialRun (x : Float) : ∃ n ≤ 169, FactorialRun x (factorial x) n := by
  cases nan : x.isNaN with
  | true =>
      rw [factorial, if_pos nan]
      exact ⟨0, Nat.zero_le _, .nan nan⟩
  | false =>
      have fraction := fract_beq_zero x
      rw [factorial, nan, if_neg Bool.false_ne_true]
      cases whole : isInteger x with
      | false =>
          obtain ⟨_, _, run⟩ := exists_gammaRun .platform (x + 1)
          exact ⟨0, Nat.zero_le _, .gamma nan (fraction.trans whole) run⟩
      | true =>
          rw [whole] at fraction
          rw [if_pos rfl]
          by_cases negative : x < 0
          · rw [if_pos negative]
            exact ⟨0, Nat.zero_le _, .pole nan fraction negative⟩
          · rw [if_neg negative]
            by_cases large : x > Float.ofNat maxFactorial
            · rw [if_pos large]
              exact ⟨0, Nat.zero_le _, .large nan fraction negative large⟩
            · obtain ⟨finite, digits⟩ := value_eq_floor whole negative
              have small : (magnitude x).floor ≤ 170 := by
                have order := ((hasValue_ofNat (by decide)).lt_iff (hasValue finite)).not.mp large
                rw [digits, not_lt, Nat.cast_le] at order
                exact order
              have run := multiplies_product finite digits (by omega)
              rw [if_neg large]
              exact ⟨_, by omega, .product nan fraction negative large run⟩

/-- The negative integers, where the factorial has its poles. -/
def IsPole (x : Float) : Prop :=
  x.isFinite = true ∧ ∃ n : Nat, 0 < n ∧ value x = -n

theorem factorial_of_pole (h : x.isNaN = true ∨ IsPole x) :
    ∃ cause, factorial x = .error (.unsupportedOperand cause) := by
  rw [factorial]
  by_cases nan : x.isNaN = true
  · exact ⟨_, if_pos nan⟩
  · obtain ⟨whole, negative⟩ := isInteger_neg_iff.mpr (h.resolve_left nan)
    rw [if_neg nan, if_pos whole, if_pos negative]
    exact ⟨_, rfl⟩

theorem factorial_of_not_pole (h : ¬ (x.isNaN = true ∨ IsPole x)) :
    ∃ y, factorial x = .ok y := by
  obtain ⟨number, regular⟩ := not_or.mp h
  rw [factorial, if_neg number]
  by_cases whole : isInteger x = true
  · have nonnegative : ¬ x < 0 := fun negative => regular (isInteger_neg_iff.mp ⟨whole, negative⟩)
    rw [if_pos whole, if_neg nonnegative]
    split <;> exact ⟨_, rfl⟩
  · exact ⟨_, if_neg whole⟩

end Factorial

/-- The factorial is refused for NaN and the negative integers and gives a number otherwise. Its
evaluation ends for every double, and there is only one: the loop multiplies at most 169 times, and
Gamma, with any functions for sine, power and exponential, calls itself at most once, as the
argument it calls itself with is not below `1/2`. -/
theorem factorial_terminates (x z : Float) (lib : Elementary) :
    ((∃ cause, factorial x = .error (.unsupportedOperand cause)) ↔ x.isNaN = true ∨ IsPole x) ∧
    (¬ (x.isNaN = true ∨ IsPole x) → ∃ y, factorial x = .ok y) ∧
    (∃ n ≤ 169, FactorialRun x (factorial x) n ∧
      ∀ outcome m, FactorialRun x outcome m → outcome = factorial x ∧ m = n) ∧
    (z < 0.5 → ¬ 1 - z < 0.5) ∧
    ∃ n ≤ 1, GammaRun lib z (gammaWith lib z) n ∧
      ∀ v m, GammaRun lib z v m → v = gammaWith lib z ∧ m = n := by
  refine ⟨⟨?_, factorial_of_pole⟩, factorial_of_not_pole, ?_, not_one_sub_lt, ?_⟩
  · rintro ⟨cause, refused⟩
    by_contra regular
    obtain ⟨y, result⟩ := factorial_of_not_pole regular
    rw [result] at refused
    cases refused
  · obtain ⟨n, le, run⟩ := exists_factorialRun x
    exact ⟨n, le, run, fun _ _ other => other.unique run⟩
  · obtain ⟨n, le, run⟩ := exists_gammaRun lib z
    exact ⟨n, le, run, fun _ _ other => other.unique run⟩

end Reckoner.Numeric
