import Reckoner.Numeric.Gamma
import Reckoner.Proofs.Binary64.Natural

/-!
# Lanczos' series at the natural numbers

The terms of the series have alternating signs and are up to a thousand times larger than its value,
so what is known of the exact sum has to be carried through the roundings. Every quotient and every
sum is off by at most one unit of its last place, which is tiny beside the exact sum: this is a
quotient of two polynomials without a negative coefficient, and three quarters.
-/

namespace Reckoner.Numeric

open Binary64

section Series

variable {n : Nat}

/-- A term of the exact series. -/
def seriesTerm (n : Nat) (term : Float × Nat) : ℚ :=
  value term.1 / (n + term.2)

/-- The coefficients of the series have these signs and magnitudes. -/
theorem digits_lanczosTerms :
    lanczosTerms.1.isFinite = true ∧ isNegative lanczosTerms.1 = false ∧
      magnitude lanczosTerms.1 = ⟨9007199254739280, -53⟩ ∧
    (lanczosTerms.2.zipIdx 1).map (fun t => (t.1.isFinite, isNegative t.1, magnitude t.1, t.2)) =
      [(true, false, ⟨5950736089418501, -43⟩, 1), (true, true, ⟨5537752839100187, -42⟩, 2),
        (true, false, ⟨6784632629736664, -43⟩, 3), (true, true, ⟨6214088902520669, -45⟩, 4),
        (true, false, ⟨7041008316161153, -49⟩, 5), (true, true, ⟨4992549864024149, -55⟩, 6),
        (true, false, ⟨5893731530977871, -69⟩, 7), (true, false, ⟨5688119651184367, -75⟩, 8)] := by
  decide +kernel

theorem value_lanczosTerms : value lanczosTerms.1 = 9007199254739280 / 2 ^ 53 := by
  obtain ⟨_, positive, digits, _⟩ := digits_lanczosTerms
  rw [value, positive, digits]
  norm_num [Magnitude.value]

/-- A list made from the coefficients, with their values written out. -/
theorem map_lanczosTerms {α : Type} (g : ℚ → Nat → α) :
    (lanczosTerms.2.zipIdx 1).map (fun t => g (value t.1) t.2) =
      [g (5950736089418501 / 2 ^ 43) 1, g (-(5537752839100187 / 2 ^ 42)) 2,
        g (6784632629736664 / 2 ^ 43) 3, g (-(6214088902520669 / 2 ^ 45)) 4,
        g (7041008316161153 / 2 ^ 49) 5, g (-(4992549864024149 / 2 ^ 55)) 6,
        g (5893731530977871 / 2 ^ 69) 7, g (5688119651184367 / 2 ^ 75) 8] := by
  obtain ⟨_, _, _, digits⟩ := digits_lanczosTerms
  have values := congrArg (List.map fun t : Bool × Bool × Magnitude × Nat =>
    g (if t.2.1 then -t.2.2.1.value else t.2.2.1.value) t.2.2.2) digits
  rw [List.map_map] at values
  refine values.trans ?_
  norm_num [Magnitude.value]

theorem finite_lanczosTerms :
    ∀ t ∈ lanczosTerms.2.zipIdx 1, t.1.isFinite = true ∧ 1 ≤ t.2 ∧ t.2 ≤ 8 := by
  intro t member
  obtain ⟨_, _, _, digits⟩ := digits_lanczosTerms
  have row := List.mem_map_of_mem
    (f := fun t : Float × Nat => (t.1.isFinite, isNegative t.1, magnitude t.1, t.2)) member
  rw [digits] at row
  simp only [List.mem_cons, List.not_mem_nil, or_false, Prod.mk.injEq] at row
  rcases row with h | h | h | h | h | h | h | h <;>
    exact ⟨h.1, by omega, by omega⟩

/-- One step of the sum: the quotient and the sum are each off by one unit of their last place. -/
theorem step_near (pos : 0 < n) (small : n < 2 ^ 52) {t : Float × Nat}
    (finite : t.1.isFinite = true) (first : 1 ≤ t.2) (last : t.2 ≤ 8) {s : Float} {b S ε : ℚ}
    (start : HasValue s.toModel.unpack b) (near : |b - S| ≤ ε)
    (bounded : |S| + |seriesTerm n t| ≤ 1000) (tiny : ε ≤ 1) :
    ∃ b', HasValue (s + t.1 / (Float.ofNat n + Float.ofNat t.2)).toModel.unpack b' ∧
      |b' - (S + seriesTerm n t)| ≤ ε + 1 / 2 ^ 41 := by
  have divisor : Float.ofNat n + Float.ofNat t.2 = Float.ofNat (n + t.2) :=
    ofNat_add pos first (by omega)
  have term : value t.1 / (n + t.2 : Nat) = seriesTerm n t := by
    rw [Nat.cast_add]
    rfl
  have quotient := roundsTo_div (hasValue finite) (hasValue_ofNat (n := n + t.2) (by omega))
    (Nat.cast_ne_zero.mpr (by omega))
  rw [term] at quotient
  have nonneg := abs_nonneg S
  obtain ⟨c, hc, error⟩ := quotient.near 10 (by decide) (by decide) (by norm_num; linarith)
  have sizeS := abs_sub_abs_le_abs_sub b S
  have sizeT := abs_sub_abs_le_abs_sub c (seriesTerm n t)
  norm_num at error
  obtain ⟨b', hb', error'⟩ := (roundsTo_add start hc).near 11 (by decide) (by decide)
    (by norm_num; linarith [abs_add_le b c])
  rw [divisor]
  refine ⟨b', hb', ?_⟩
  norm_num at error'
  rw [abs_le] at near error error' ⊢
  norm_num
  constructor <;> linarith [near.1, near.2, error.1, error.2, error'.1, error'.2]

/-- The errors of the steps add up. -/
theorem foldl_near (pos : 0 < n) (small : n < 2 ^ 52) (terms : List (Float × Nat))
    (finite : ∀ t ∈ terms, t.1.isFinite = true ∧ 1 ≤ t.2 ∧ t.2 ≤ 8) {s : Float} {b S ε : ℚ}
    (start : HasValue s.toModel.unpack b) (near : |b - S| ≤ ε)
    (bounded : |S| + (terms.map fun t => |seriesTerm n t|).sum ≤ 1000)
    (tiny : ε + terms.length / 2 ^ 41 ≤ 1) :
    ∃ b', HasValue (terms.foldl
        (fun sum term => sum + term.1 / (Float.ofNat n + Float.ofNat term.2)) s).toModel.unpack b' ∧
      |b' - (S + (terms.map (seriesTerm n)).sum)| ≤ ε + terms.length / 2 ^ 41 := by
  induction terms generalizing s b S ε with
  | nil =>
      refine ⟨b, start, ?_⟩
      simpa using near
  | cons t terms ih =>
      obtain ⟨number, first, last⟩ := finite t (.head terms)
      rw [List.map_cons, List.sum_cons] at bounded ⊢
      rw [List.length_cons, Nat.cast_add_one, add_div] at tiny ⊢
      have rest : 0 ≤ (terms.map fun t => |seriesTerm n t|).sum :=
        List.sum_nonneg (List.forall_mem_map.mpr fun _ _ => abs_nonneg _)
      have steps : (0 : ℚ) ≤ terms.length / 2 ^ 41 + 1 / 2 ^ 41 := by positivity
      obtain ⟨b', next, near'⟩ := step_near pos small number first last start near
        (by linarith) (by linarith)
      have size := abs_add_le S (seriesTerm n t)
      obtain ⟨b'', sum, error⟩ := ih (fun t member => finite t (.tail _ member)) next near'
        (by linarith) (by linarith)
      refine ⟨b'', sum, ?_⟩
      rw [← add_assoc]
      linarith

theorem sum_abs_seriesTerm (pos : 0 < n) : |value lanczosTerms.1| +
    ((lanczosTerms.2.zipIdx 1).map fun t => |seriesTerm n t|).sum ≤ 1000 := by
  have one : (1 : ℚ) ≤ n := Nat.one_le_cast.mpr pos
  have first (t : Float × Nat) : |seriesTerm n t| ≤ |value t.1| / (1 + t.2) := by
    rw [seriesTerm, abs_div, abs_of_pos (by positivity : (0 : ℚ) < n + t.2)]
    gcongr
  have bound := List.sum_le_sum (l := lanczosTerms.2.zipIdx 1) fun t _ => first t
  rw [map_lanczosTerms fun c i => |c| / (1 + i)] at bound
  refine (add_le_add_right bound _).trans ?_
  rw [value_lanczosTerms]
  norm_num [abs_of_pos, abs_neg]

/-- A coefficient cut to two decimals. -/
def cents (c : ℚ) : ℚ :=
  ⌊100 * c⌋ / 100

theorem cents_le (c : ℚ) : cents c ≤ c := by
  rw [cents, div_le_iff₀ (by norm_num), mul_comm c]
  exact Int.floor_le _

/-- With coefficients cut to two decimals the sum less three quarters is a quotient of polynomials
without a negative coefficient. -/
theorem rounded_series_lower {x : ℚ} (nonneg : 0 ≤ x) :
    3 / 4 ≤ 0.99 + 676.52 / (x + 1) - 1259.14 / (x + 2) + 771.32 / (x + 3) - 176.62 / (x + 4) +
      12.5 / (x + 5) - 0.14 / (x + 6) := by
  have rest : 0.99 + 676.52 / (x + 1) - 1259.14 / (x + 2) + 771.32 / (x + 3) - 176.62 / (x + 4) +
      12.5 / (x + 5) - 0.14 / (x + 6) - 3 / 4 =
      (0.24 * x ^ 6 + 29.48 * x ^ 5 + 727.86 * x ^ 4 + 8141.8 * x ^ 3 + 48235.02 * x ^ 2 +
        148694.64 * x + 189085.2) /
      ((x + 1) * (x + 2) * (x + 3) * (x + 4) * (x + 5) * (x + 6)) := by
    field_simp
    ring
  rw [← sub_nonneg, rest]
  positivity

theorem sum_seriesTerm_lower (n : Nat) : 3 / 4 ≤ value lanczosTerms.1 +
    ((lanczosTerms.2.zipIdx 1).map (seriesTerm n)).sum := by
  have cut (t : Float × Nat) : cents (value t.1) / (n + t.2) ≤ seriesTerm n t :=
    div_le_div_of_nonneg_right (cents_le _) (by positivity)
  have lower := List.sum_le_sum (l := lanczosTerms.2.zipIdx 1) fun t _ => cut t
  rw [map_lanczosTerms fun c i => cents c / (n + i)] at lower
  refine le_trans ?_ (add_le_add (cents_le _) lower)
  rw [value_lanczosTerms]
  refine (rounded_series_lower (Nat.cast_nonneg (α := ℚ) n)).trans_eq ?_
  norm_num [cents]
  ring

/-- The computed series is not below one half. -/
theorem atLeast_lanczosSeries (pos : 0 < n) (small : n < 2 ^ 52) :
    AtLeast .positive (-1) (lanczosSeries (Float.ofNat n)).toModel.unpack := by
  have count : (lanczosTerms.2.zipIdx 1).length = 8 := rfl
  obtain ⟨b, sum, error⟩ := foldl_near pos small (lanczosTerms.2.zipIdx 1) finite_lanczosTerms
    (hasValue digits_lanczosTerms.1) (sub_self (value lanczosTerms.1) ▸ abs_zero.le)
    (sum_abs_seriesTerm pos) (by rw [count]; norm_num)
  have lower := sum_seriesTerm_lower n
  rw [count, abs_le] at error
  apply sum.roundsTo.atLeast .positive (-1) (by decide)
  norm_num [signed] at error ⊢
  linarith [error.1]

end Series

end Reckoner.Numeric
