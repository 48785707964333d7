import Reckoner.Proofs.Decimal.Lowest
import Reckoner.Proofs.Decimal.Nearest

/-!
# The shortest decimal

Of the decimals that are converted to a double, `shortest` is the one with the fewest digits, of
those with as many digits the nearest to the double, and of two that are equally near the greater.

The decimals for a double fill an interval around it. If one of them has `n` digits then so does a
point of the grid of that many digits, since a power of ten that lies between it and the double is a
point of every grid; and with any point of a grid one of the two neighbours of the double is in the
interval. So the search, which looks at the neighbours on finer and finer grids, misses nothing. On
the grid of seventeen digits it ends: the nearer neighbour is too near to belong to another double.
-/

namespace Reckoner.Decimal

open Binary64

-- Powers of natural numbers are the ones of the core library here, whatever else is imported.
attribute [local instance (high)] instPowNat

/-- A number `a` is nearer to `q` than `b` is, or it is not the smaller one of two that are equally
near. -/
def Prefers (q a b : ℚ) : Prop :=
  |q - a| < |q - b| ∨ |q - a| = |q - b| ∧ b ≤ a

/-- The shortest of the decimals for a double; if there are more of them, the one that is preferred
to the others. -/
structure IsShortest (x : Float) (d : Decimal) : Prop where
  lowest : d.IsLowest
  reads : d.toFloat = x
  best : ∀ d' : Decimal, d'.IsLowest → d'.toFloat = x →
    d.size < d'.size ∨ d.size = d'.size ∧ Prefers (magnitude x).value d.value d'.value

section Unique

variable {d d' : Decimal}

theorem Prefers.eq {q a b : ℚ} (h : Prefers q a b) (h' : Prefers q b a) : a = b := by
  obtain nearer | ⟨same, le⟩ := h <;> obtain nearer' | ⟨same', le'⟩ := h' <;> linarith

theorem IsShortest.unique {x : Float} (h : IsShortest x d) (h' : IsShortest x d') : d = d' := by
  apply h.lowest.eq_of_value h'.lowest
  obtain shorter | ⟨_, preferred⟩ := h.best d' h'.lowest h'.reads <;>
    obtain shorter' | ⟨_, preferred'⟩ := h'.best d h.lowest h.reads
  · omega
  · omega
  · omega
  · exact preferred.eq preferred'

end Unique

section Neighbours

variable {X q r a b c : ℚ} {x : Float} {d : Decimal} {n i : Nat} {k : Int}

theorem Prefers.refl (q a : ℚ) : Prefers q a a :=
  .inr ⟨rfl, le_rfl⟩

theorem Prefers.trans (h : Prefers q a b) (h' : Prefers q b c) : Prefers q a c := by
  obtain nearer | ⟨same, le⟩ := h
  · obtain nearer' | ⟨same', _⟩ := h'
    · exact .inl (nearer.trans nearer')
    · exact .inl (nearer.trans_eq same')
  · obtain nearer' | ⟨same', le'⟩ := h'
    · exact .inl (same.trans_lt nearer')
    · exact .inr ⟨same.trans same', le'.trans le⟩

/-- Positive numbers that are rounded to the value of a double. -/
def Reads (X q : ℚ) : Prop :=
  0 < q ∧ Rounding q X

theorem Reads.between (h : Reads X q) (h' : Reads X r) (low : q ≤ a) (high : a ≤ r) : Reads X a :=
  ⟨h.1.trans_le low, rounding_of_between h.2 h'.2 h.1 low high⟩

/-- Of the numbers up to `X` the greater ones are preferred, and they read back if smaller ones
do. -/
theorem Reads.below (h : Reads X q) (self : Reads X X) (low : q ≤ a) (high : a ≤ X) :
    Reads X a ∧ Prefers X a q := by
  refine ⟨h.between self low high, ?_⟩
  rw [Prefers, abs_of_nonneg (by linarith), abs_of_nonneg (by linarith)]
  obtain same | less := low.eq_or_lt
  · exact .inr ⟨by rw [same], low⟩
  · exact .inl (by linarith)

theorem Reads.above (h : Reads X q) (self : Reads X X) (low : X ≤ a) (high : a ≤ q) :
    Reads X a ∧ Prefers X a q := by
  refine ⟨self.between h low high, ?_⟩
  rw [Prefers, abs_of_nonpos (by linarith), abs_of_nonpos (by linarith)]
  obtain same | less := high.eq_or_lt
  · exact .inr ⟨by rw [same], same.ge⟩
  · exact .inl (by linarith)

/-- The powers of ten around a ratio. -/
theorem pointPosition_bounds {a b : Nat} (dividend : 0 < a) (divisor : 0 < b) :
    (10 : ℚ) ^ (pointPosition (a, b) - 1) ≤ a / b ∧ (a / b : ℚ) < 10 ^ pointPosition (a, b) := by
  have a_pos : (0 : ℚ) < a := Nat.cast_pos.mpr dividend
  have b_pos : (0 : ℚ) < b := Nat.cast_pos.mpr divisor
  by_cases large : b ≤ a
  · have whole : 0 < a / b := Nat.div_pos large divisor
    have counted := length_digits_pos (a / b)
    have lower := (Nat.le_div_iff_mul_le divisor).mp (pow_length_digits_le whole)
    have upper := (Nat.div_lt_iff_lt_mul divisor).mp (lt_pow_length_digits (a / b))
    rw [show pointPosition (a, b) = ((digits (a / b)).length : Int) from if_pos large]
    generalize (digits (a / b)).length = n at counted lower upper ⊢
    have one : (n : Int) - 1 = (n - 1 : Nat) := by omega
    rw [one, ← natCast_ten_pow, ← natCast_ten_pow, le_div_iff₀ b_pos, div_lt_iff₀ b_pos]
    exact ⟨by exact_mod_cast lower, by exact_mod_cast upper⟩
  · have whole : 0 < (b - 1) / a := Nat.div_pos (by omega) dividend
    have counted := length_digits_pos ((b - 1) / a)
    have lower := (Nat.le_div_iff_mul_le dividend).mp (pow_length_digits_le whole)
    have upper := (Nat.div_lt_iff_lt_mul dividend).mp (lt_pow_length_digits ((b - 1) / a))
    rw [show pointPosition (a, b) = 1 - ((digits ((b - 1) / a)).length : Int) from if_neg large]
    generalize (digits ((b - 1) / a)).length = n at counted lower upper ⊢
    have one : (1 : Int) - n = -(n - 1 : Nat) := by omega
    have none : (1 : Int) - n - 1 = -n := by omega
    rw [none, one, zpow_neg, zpow_neg, ← natCast_ten_pow, ← natCast_ten_pow, ← one_div, ← one_div,
      div_le_div_iff₀ (by positivity) b_pos, div_lt_div_iff₀ b_pos (by positivity)]
    constructor
    · exact_mod_cast (show 1 * b ≤ a * 10 ^ n by rw [Nat.mul_comm a]; omega)
    · exact_mod_cast (show a * 10 ^ (n - 1) < 1 * b by rw [Nat.mul_comm a]; omega)

theorem scaleRatio_eq (m : Magnitude) (k : Int) :
    0 < (scaleRatio m.ratio k).2 ∧
      ((scaleRatio m.ratio k).1 : ℚ) / (scaleRatio m.ratio k).2 = m.value / 10 ^ k := by
  have divisor : 0 < m.ratio.2 * 10 ^ k.toNat :=
    Nat.mul_pos (Nat.two_pow_pos _) (Nat.pow_pos (by decide))
  refine ⟨divisor, ?_⟩
  have power : (10 : ℚ) ^ k * 10 ^ ((-k).toNat : Int) = 10 ^ (k.toNat : Int) := by
    rw [← ten_zpow_add]
    congr 1
    omega
  have denominator : (m.ratio.2 : ℚ) ≠ 0 := Nat.cast_ne_zero.mpr (Nat.ne_of_gt (Nat.two_pow_pos _))
  show ((m.ratio.1 * 10 ^ (-k).toNat : Nat) : ℚ) / (m.ratio.2 * 10 ^ k.toNat : Nat) = _
  rw [Nat.cast_mul, Nat.cast_mul, natCast_ten_pow, natCast_ten_pow, ← m.value_mul_denominator,
    ← power, div_eq_div_iff (by have := ten_zpow_pos k; positivity) (ten_zpow_pos k).ne']
  ring

/-- The two points of a grid that are next to a number, the preferred one first. -/
theorem exists_neighbours (x : Float) (k : Int) : ∃ (n : Nat) (first second : Decimal),
    (n : ℚ) * 10 ^ k ≤ (magnitude x).value ∧ (magnitude x).value < (n + 1 : Nat) * 10 ^ k ∧
      (first = ⟨n, k⟩ ∧ second = ⟨n + 1, k⟩ ∨ first = ⟨n + 1, k⟩ ∧ second = ⟨n, k⟩) ∧
      Prefers (magnitude x).value first.value second.value ∧
      neighbour? x k = [first, second].find? (readsBack x) := by
  obtain ⟨divisor, scaled⟩ := scaleRatio_eq (magnitude x) k
  rw [div_eq_add_mod _ divisor] at scaled
  have unit := ten_zpow_pos k
  unfold neighbour?
  simp only
  generalize scaleRatio (magnitude x).ratio k = r at *
  have positive : (0 : ℚ) < r.2 := Nat.cast_pos.mpr divisor
  have nonneg : (0 : ℚ) ≤ (r.1 % r.2 : Nat) / r.2 := by positivity
  have bounded : ((r.1 % r.2 : Nat) : ℚ) / r.2 < 1 := by
    rw [div_lt_one positive]
    exact_mod_cast Nat.mod_lt r.1 divisor
  have value : (magnitude x).value = ((r.1 / r.2 : Nat) + (r.1 % r.2 : Nat) / r.2) * 10 ^ k := by
    rw [scaled, div_mul_cancel₀ _ unit.ne']
  generalize rest : ((r.1 % r.2 : Nat) : ℚ) / r.2 = f at *
  generalize r.1 / r.2 = n at value ⊢
  have below : 0 ≤ f * 10 ^ k := by positivity
  have above : 0 < (1 - f) * 10 ^ k := mul_pos (by linarith) unit
  have lower : |(magnitude x).value - n * 10 ^ k| = f * 10 ^ k := by
    rw [value, add_mul, add_sub_cancel_left, abs_of_nonneg below]
  have upper : |(magnitude x).value - (n + 1 : Nat) * 10 ^ k| = (1 - f) * 10 ^ k := by
    rw [abs_sub_comm, value, Nat.cast_add_one, ← sub_mul, add_sub_add_left_eq_sub,
      abs_of_pos above]
  have floor : (n : ℚ) * 10 ^ k ≤ (magnitude x).value := by linarith
  have ceiling : (magnitude x).value < (n + 1 : Nat) * 10 ^ k := by
    rw [Nat.cast_add_one]
    linarith
  by_cases near : 2 * (r.1 % r.2) < r.2
  · have less : f < 1 / 2 := by
      rw [← rest, div_lt_div_iff₀ positive two_pos]
      exact_mod_cast (show r.1 % r.2 * 2 < 1 * r.2 by omega)
    rw [if_pos near]
    refine ⟨n, ⟨n, k⟩, ⟨n + 1, k⟩, floor, ceiling, .inl ⟨rfl, rfl⟩, .inl ?_, rfl⟩
    simp only [Decimal.value]
    rw [lower, upper]
    exact mul_lt_mul_of_pos_right (by linarith) unit
  · have least : 1 / 2 ≤ f := by
      rw [← rest, div_le_div_iff₀ two_pos positive]
      exact_mod_cast (show 1 * r.2 ≤ r.1 % r.2 * 2 by omega)
    rw [if_neg near]
    refine ⟨n, ⟨n + 1, k⟩, ⟨n, k⟩, floor, ceiling, .inr ⟨rfl, rfl⟩, ?_, rfl⟩
    have le : (1 - f) * 10 ^ k ≤ f * 10 ^ k := mul_le_mul_of_nonneg_right (by linarith) unit.le
    simp only [Prefers, Decimal.value]
    rw [lower, upper]
    exact le.lt_or_eq.imp_right fun same => ⟨same, floor.trans ceiling.le⟩

theorem Reads.neighbour (h : Reads X (i * 10 ^ k)) (self : Reads X X)
    (floor : (n : ℚ) * 10 ^ k ≤ X) (ceiling : X < (n + 1 : Nat) * 10 ^ k) :
    ∃ c : Decimal, (c = ⟨n, k⟩ ∨ c = ⟨n + 1, k⟩) ∧ Reads X c.value ∧
      Prefers X c.value (i * 10 ^ k) := by
  have unit := (ten_zpow_pos k).le
  obtain le | less := Nat.lt_or_ge n i |>.symm
  · refine ⟨⟨n, k⟩, .inl rfl, h.below self ?_ floor⟩
    exact mul_le_mul_of_nonneg_right (Nat.cast_le.mpr le) unit
  · refine ⟨⟨n + 1, k⟩, .inr rfl, h.above self ceiling.le ?_⟩
    exact mul_le_mul_of_nonneg_right (Nat.cast_le.mpr less) unit

end Neighbours

section Search

variable {x : Float} {d : Decimal} {n i : Nat} {k : Int}

/-- A finite double above zero. -/
structure Positive (x : Float) : Prop where
  finite : x.isFinite = true
  nonnegative : isNegative x = false
  nonzero : (magnitude x).significand ≠ 0

variable (pos : Positive x)

include pos

theorem Positive.canonical : Canonical (magnitude x) := by
  rcases unpack_eq_magnitude pos.finite pos.nonnegative with ⟨_, zero⟩ | ⟨_, _, canonical⟩
  · exact absurd (congrArg Magnitude.significand zero) pos.nonzero
  · exact canonical

theorem Positive.reads_self : Reads (magnitude x).value (magnitude x).value :=
  ⟨pos.canonical.value_pos, pos.canonical.rounding⟩

theorem Positive.toFloat_eq_iff : d.toFloat = x ↔ Reads (magnitude x).value d.value :=
  Decimal.toFloat_eq_iff pos.finite pos.nonnegative pos.nonzero

theorem Positive.readsBack_iff : readsBack x d = true ↔ Reads (magnitude x).value d.value := by
  rw [readsBack, decide_eq_true_eq, pos.toFloat_eq_iff, value_lowest]

/-- Some power of ten is the first above a double. -/
theorem Positive.pointPosition_bounds :
    10 ^ (pointPosition (magnitude x).ratio - 1) ≤ (magnitude x).value ∧
      (magnitude x).value < 10 ^ pointPosition (magnitude x).ratio := by
  have divisor : 0 < (magnitude x).ratio.2 := Nat.two_pow_pos _
  have dividend : 0 < (magnitude x).ratio.1 :=
    Nat.mul_pos (Nat.pos_of_ne_zero pos.nonzero) (Nat.two_pow_pos _)
  have value : (magnitude x).value = (magnitude x).ratio.1 / (magnitude x).ratio.2 := by
    rw [eq_div_iff (Nat.cast_ne_zero.mpr (Nat.ne_of_gt divisor)), Magnitude.value_mul_denominator]
  rw [value]
  exact Decimal.pointPosition_bounds dividend divisor

/-- If a point of a grid reads back then one of the two neighbours is found, and it is preferred. -/
theorem Positive.neighbour?_spec (k : Int) :
    (∀ d, neighbour? x k = some d → d.exponent = k ∧ Reads (magnitude x).value d.value ∧
      (d.significand - 1 : ℚ) * 10 ^ k ≤ (magnitude x).value ∧
      ∀ i : Nat, Reads (magnitude x).value (i * 10 ^ k) →
        Prefers (magnitude x).value d.value (i * 10 ^ k)) ∧
    (neighbour? x k = none → ∀ i : Nat, ¬ Reads (magnitude x).value (i * 10 ^ k)) := by
  obtain ⟨n, first, second, floor, ceiling, order, preferred, search⟩ := exists_neighbours x k
  have unit := ten_zpow_pos k
  have best (i : Nat) (reads : Reads (magnitude x).value (i * 10 ^ k)) :
      ∃ c, (c = first ∨ c = second) ∧ readsBack x c = true ∧
        Prefers (magnitude x).value c.value (i * 10 ^ k) := by
    obtain ⟨c, neighbour, back, better⟩ := reads.neighbour pos.reads_self floor ceiling
    refine ⟨c, ?_, pos.readsBack_iff.mpr back, better⟩
    obtain ⟨rfl, rfl⟩ | ⟨rfl, rfl⟩ := order
    · exact neighbour
    · exact neighbour.symm
  have shape {d : Decimal} (h : d = first ∨ d = second) :
      d.exponent = k ∧ (d.significand - 1 : ℚ) * 10 ^ k ≤ (magnitude x).value := by
    have either : d = ⟨n, k⟩ ∨ d = ⟨n + 1, k⟩ := by
      obtain ⟨rfl, rfl⟩ | ⟨rfl, rfl⟩ := order
      · exact h
      · exact h.symm
    obtain rfl | rfl := either
    · exact ⟨rfl, le_trans (mul_le_mul_of_nonneg_right (by simp) unit.le) floor⟩
    · exact ⟨rfl, by simpa using floor⟩
  rw [search, List.find?_cons, List.find?_cons, List.find?_nil]
  cases back : readsBack x first with
  | true =>
      refine ⟨?_, nofun⟩
      rintro d ⟨⟩
      obtain ⟨exponent, bound⟩ := shape (.inl rfl)
      refine ⟨exponent, pos.readsBack_iff.mp back, bound, fun i reads => ?_⟩
      obtain ⟨c, rfl | rfl, _, better⟩ := best i reads
      · exact better
      · exact preferred.trans better
  | false =>
      have other (i : Nat) (reads : Reads (magnitude x).value (i * 10 ^ k)) :
          readsBack x second = true ∧ Prefers (magnitude x).value second.value (i * 10 ^ k) := by
        obtain ⟨c, rfl | rfl, reads, better⟩ := best i reads
        · rw [back] at reads
          cases reads
        · exact ⟨reads, better⟩
      cases back' : readsBack x second with
      | true =>
          refine ⟨?_, nofun⟩
          rintro d ⟨⟩
          obtain ⟨exponent, bound⟩ := shape (.inr rfl)
          exact ⟨exponent, pos.readsBack_iff.mp back', bound, fun i reads => (other i reads).2⟩
      | false =>
          refine ⟨nofun, fun _ i reads => ?_⟩
          have := (other i reads).1
          rw [back'] at this
          cases this

/-- Seventeen digits are enough for every double. -/
theorem Positive.neighbour?_maxDigits :
    neighbour? x (pointPosition (magnitude x).ratio - maxDigits) ≠ none := by
  obtain ⟨low, _⟩ := pos.pointPosition_bounds
  set k := pointPosition (magnitude x).ratio - maxDigits with grid
  obtain ⟨n, first, second, floor, ceiling, order, preferred, _⟩ := exists_neighbours x k
  have size : (10 : ℚ) ^ k * 10 ^ 16 ≤ (magnitude x).value := by
    have exponent : pointPosition (magnitude x).ratio - 1 = k + 16 := by
      simp only [grid, maxDigits]
      omega
    rwa [exponent, ten_zpow_add] at low
  have unit := ten_zpow_pos k
  have half : |(magnitude x).value - first.value| ≤ 10 ^ k / 2 := by
    rw [Nat.cast_add_one, add_one_mul] at ceiling
    have nearer : |(magnitude x).value - first.value| ≤ |(magnitude x).value - second.value| :=
      preferred.elim le_of_lt fun h => h.1.le
    obtain ⟨rfl, rfl⟩ | ⟨rfl, rfl⟩ := order <;>
      simp only [Decimal.value, Nat.cast_add_one, add_one_mul] at nearer ⊢
    · rw [abs_of_nonneg (by linarith), abs_of_nonpos (by linarith)] at nearer
      rw [abs_of_nonneg (by linarith)]
      linarith
    · rw [abs_of_nonpos (by linarith), abs_of_nonneg (by linarith)] at nearer
      rw [abs_of_nonpos (by linarith)]
      linarith
  have rounding : Rounding first.value (magnitude x).value := by
    apply pos.canonical.rounding_of_near
    rw [abs_sub_comm]
    linarith
  have positive : 0 < first.value := by
    have := (abs_le.mp half).2
    linarith
  intro none
  obtain ⟨i, point⟩ : ∃ i : Nat, first.value = i * 10 ^ k := by
    obtain ⟨rfl, _⟩ | ⟨rfl, _⟩ := order
    · exact ⟨n, rfl⟩
    · exact ⟨n + 1, rfl⟩
  exact (pos.neighbour?_spec k).2 none i (point ▸ ⟨positive, rounding⟩)

/-- With a decimal that reads back a point of the grid of as many digits does, and it is not worse.
If they are not on the same side of a power of ten as the double, it is that power. -/
theorem Positive.exists_point (reads : Reads (magnitude x).value d.value) :
    ∃ i : Nat, Reads (magnitude x).value (i * 10 ^ (pointPosition (magnitude x).ratio - d.size)) ∧
      Prefers (magnitude x).value (i * 10 ^ (pointPosition (magnitude x).ratio - d.size))
        d.value := by
  obtain ⟨low, high⟩ := pos.pointPosition_bounds
  generalize pointPosition (magnitude x).ratio = p at *
  have nonzero : 0 < d.significand := by
    by_contra zero
    have none : d.significand = 0 := by omega
    have := reads.1
    rw [Decimal.value, none, Nat.cast_zero, zero_mul] at this
    exact lt_irrefl _ this
  have counted : 0 < d.size := length_digits_pos _
  obtain ⟨lower, upper⟩ := value_bounds nonzero
  obtain less | same | more := lt_trichotomy (d.size + d.exponent : Int) p
  · refine ⟨10 ^ (d.size - 1), ?_⟩
    have power : ((10 ^ (d.size - 1) : Nat) : ℚ) * 10 ^ (p - d.size) = 10 ^ (p - 1) := by
      rw [natCast_ten_pow, ← ten_zpow_add]
      congr 1
      omega
    rw [power]
    apply reads.below pos.reads_self _ low
    exact upper.le.trans (zpow_le_zpow_right₀ (by norm_num) (by omega))
  · refine ⟨d.significand, ?_⟩
    rw [show p - d.size = d.exponent by omega]
    exact ⟨reads, .refl _ _⟩
  · refine ⟨10 ^ d.size, ?_⟩
    have power : ((10 ^ d.size : Nat) : ℚ) * 10 ^ (p - d.size) = 10 ^ p := by
      rw [natCast_ten_pow, ← ten_zpow_add]
      congr 1
      omega
    rw [power]
    apply reads.above pos.reads_self high.le
    exact le_trans (zpow_le_zpow_right₀ (by norm_num) (by omega)) lower

/-- The search ends with the first grid on which it finds anything. -/
theorem Positive.shortest_eq : ∃ (i : Nat) (d : Decimal), shortest x = d.lowest ∧
    neighbour? x (pointPosition (magnitude x).ratio - (i + 1 : Nat)) = some d ∧
      ∀ j < i, neighbour? x (pointPosition (magnitude x).ratio - (j + 1 : Nat)) = none := by
  unfold shortest
  simp only [if_neg pos.nonzero]
  generalize search : List.findSome? _ _ = found
  cases found with
  | none =>
      rw [List.findSome?_eq_none_iff] at search
      exact absurd (search 16 (by decide)) pos.neighbour?_maxDigits
  | some d =>
      obtain ⟨front, i, behind, range, here, before⟩ := List.findSome?_eq_some_iff.mp search
      refine ⟨i, d, rfl, here, fun j less => before j ?_⟩
      have member : j ∈ front ++ i :: behind := by
        have bound : i ∈ List.range maxDigits := by simp [range]
        rw [← range, List.mem_range]
        exact less.trans (List.mem_range.mp bound)
      have sorted : (front ++ i :: behind).Pairwise (· < ·) := range ▸ List.pairwise_lt_range
      obtain inside | other := List.mem_append.mp member
      · exact inside
      · obtain rfl | after := List.mem_cons.mp other
        · exact absurd less (lt_irrefl _)
        · have := List.rel_of_pairwise_cons (List.pairwise_append.mp sorted).2.1 after
          omega

theorem Positive.isShortest_shortest : IsShortest x (shortest x) := by
  obtain ⟨i, d, result, here, before⟩ := pos.shortest_eq
  obtain ⟨spec, _⟩ := pos.neighbour?_spec (pointPosition (magnitude x).ratio - (i + 1 : Nat))
  obtain ⟨exponent, reads, bound, best⟩ := spec d here
  have short : d.lowest.size ≤ i + 1 := by
    apply size_lowest_le
    have bounded : ((d.significand : ℚ) - 1) < 10 ^ (i + 1 : Nat) := by
      have upper := bound.trans_lt pos.pointPosition_bounds.2
      rw [← sub_add_cancel (pointPosition (magnitude x).ratio) (i + 1 : Nat), ten_zpow_add,
        mul_comm (10 ^ _ : ℚ), sub_add_cancel] at upper
      rw [← zpow_natCast]
      exact lt_of_mul_lt_mul_right upper (ten_zpow_pos _).le
    have : (d.significand : ℚ) < (10 ^ (i + 1) + 1 : Nat) := by
      push_cast
      linarith
    exact Nat.lt_succ_iff.mp (Nat.cast_lt.mp this)
  rw [result]
  refine ⟨isLowest_lowest d, ?_, fun d' lowest' reads' => ?_⟩
  · rw [pos.toFloat_eq_iff, value_lowest]
    exact reads
  · rw [pos.toFloat_eq_iff] at reads'
    obtain ⟨j, point, better⟩ := pos.exists_point reads'
    have counted : 0 < d'.size := length_digits_pos _
    have least : i + 1 ≤ d'.size := by
      by_contra less
      have none := before (d'.size - 1) (by omega)
      rw [show d'.size - 1 + 1 = d'.size by omega] at none
      exact (pos.neighbour?_spec _).2 none j point
    obtain same | less := (short.trans least).eq_or_lt
    · refine .inr ⟨same, ?_⟩
      have size : d'.size = i + 1 := by omega
      rw [size] at point better
      rw [value_lowest]
      exact (best j point).trans better
    · exact .inl less

end Search

theorem toFloat_zero : (⟨0, 0⟩ : Decimal).toFloat = .ofModel (.pack (.zero .positive)) := by
  decide +kernel

/-- The shortest decimal of a finite double without a sign. -/
theorem isShortest_shortest {x : Float} (finite : x.isFinite = true)
    (nonnegative : isNegative x = false) : IsShortest x (shortest x) := by
  by_cases zero : (magnitude x).significand = 0
  · have result : shortest x = ⟨0, 0⟩ := if_pos zero
    have same : x = .ofModel (.pack (.zero .positive)) := by
      rcases unpack_eq_magnitude finite nonnegative with ⟨unpacked, _⟩ | ⟨pos, _⟩
      · rw [← unpacked, pack_unpack_double]
      · omega
    have value : (magnitude x).value = 0 := by rw [Magnitude.value, zero, Nat.cast_zero, zero_mul]
    have nothing : (⟨0, 0⟩ : Decimal).value = 0 := by simp [Decimal.value]
    rw [result]
    refine ⟨.inl rfl, toFloat_zero.trans same.symm, fun d' _ _ => ?_⟩
    have least : (⟨0, 0⟩ : Decimal).size ≤ d'.size := length_digits_pos d'.significand
    refine least.lt_or_eq.imp_right fun size => ⟨size, ?_⟩
    rw [value, nothing, Prefers, sub_self, abs_zero, zero_sub, abs_neg]
    obtain none | some := eq_or_ne d'.value 0
    · exact .inr ⟨by rw [none, abs_zero], none.le⟩
    · exact .inl (abs_pos.mpr some)
  · exact Positive.isShortest_shortest ⟨finite, nonnegative, zero⟩

end Reckoner.Decimal
