import Mathlib
import Reckoner.Binary64.Magnitude

/-!
# The fields of a double

The bits of a double are a sign, an exponent field and a fraction, and stand for a number with a
sign, a significand and an exponent. A finite number other than zero has one `Canonical` pair of a
significand and an exponent; writing it into bits and reading it again gives it back. `magnitude`
and `isNegative` take the same numbers out of the bits directly.
-/

namespace Reckoner.Binary64

open Float.Model (Format UnpackedFloat totalExponent)
open Float.Model.UnpackedFloat

-- Powers of natural numbers are the ones of the core library here, whatever else is imported.
attribute [local instance (high)] instPowNat

/-- The numbers that are the magnitude of a finite double other than zero. -/
structure Canonical (m : Magnitude) : Prop where
  positive : 0 < m.significand
  bounded : m.significand < 2 ^ 53
  least : minExponent ≤ m.exponent
  greatest : m.exponent ≤ 971
  /-- Only at the least exponent may the leading bit be missing. -/
  filled : m.exponent = minExponent ∨ 2 ^ 52 ≤ m.significand

/-- The magnitudes of finite doubles, also of zero and with a leading bit missing. -/
structure Magnitude.Fits (m : Magnitude) : Prop where
  bounded : m.significand < 2 ^ 53
  least : minExponent ≤ m.exponent
  greatest : m.exponent ≤ 971

section Fields

theorem toNat_append_eq {n k : Nat} (high : BitVec n) (low : BitVec k) :
    (high ++ low).toNat = high.toNat * 2 ^ k + low.toNat := by
  rw [BitVec.toNat_append, ← Nat.shiftLeft_add_eq_or_of_lt low.isLt, Nat.shiftLeft_eq]

variable (s : Sign) (e : BitVec 11) (m : BitVec 52)

theorem toNat_packComponents :
    (packComponents Format.binary64 s e m).toNat =
      s.toBitVec.toNat * 2 ^ 63 + e.toNat * 2 ^ 52 + m.toNat := by
  simp only [packComponents, toNat_append_eq]
  omega

theorem exists_fields (b : BitVec Format.binary64.numBits) :
    ∃ s e m, b = packComponents Format.binary64 s e m :=
  ⟨_, _, _, (packComponents_unpackSign_unpackExponent_unpackMantissa b).symm⟩

theorem unpack_special :
    unpack Format.binary64 (packComponents Format.binary64 s (-1#11) m) =
      if m = 0#52 then .infinity s else .notANumber := by
  simp [unpack]

theorem unpack_small :
    unpack Format.binary64 (packComponents Format.binary64 s 0#11 m) =
      if h : m = 0#52 then .zero s
      else .finite s m.toNat minExponent
        (by simpa [BitVec.toNat_pos, BitVec.pos_iff_ne_zero]) := by
  simp [unpack]
  rfl

variable {e} in
theorem unpack_normal (special : e ≠ -1#11) (small : e ≠ 0#11) :
    unpack Format.binary64 (packComponents Format.binary64 s e m) =
      .finite s (2 ^ 52 + m.toNat) (e.toNat - 1075) (by omega) := by
  simp only [unpack, unpackSign_packComponents, Sign.ofBitVec_toBitVec,
    unpackExponent_packComponents, unpackMantissa_packComponents, if_neg special, if_neg small,
    UnpackedFloat.finite.injEq]
  exact ⟨trivial, toNat_append_eq 1#1 m, rfl⟩

theorem pack_finite {m : Nat} (e : Int) (pos : 0 < m) :
    pack Format.binary64 (.finite s m e pos) =
      if 971 < e then packComponents Format.binary64 s (-1#11) 0#52
      else packComponents Format.binary64 s
        (if m.log2 + 1 = 53 then .ofNat 11 (e + 1075).toNat else 0#11) (.ofNat 52 m) := by
  have biased : e + 1023 + 52 = e + 1075 := by omega
  have large : 2 ^ 11 ≤ (e + 1075).toNat + 1 ↔ 971 < e := by omega
  show (if 2 ^ 11 ≤ (e + 1023 + 52).toNat + 1 then packComponents Format.binary64 s (-1#11) 0#52
    else if m.log2 + 1 = 53 then
      packComponents Format.binary64 s (.ofNat 11 (e + 1023 + 52).toNat) (.ofNat 52 m)
    else packComponents Format.binary64 s 0 (.ofNat 52 m)) = _
  rw [biased]
  simp only [large]
  congr 1
  split <;> rfl

theorem pack_small {m : Nat} (pos : 0 < m) (bounded : m < 2 ^ 52) :
    pack Format.binary64 (.finite s m minExponent pos) =
      packComponents Format.binary64 s 0#11 (.ofNat 52 m) := by
  have unfilled := (Nat.log2_lt (Nat.ne_of_gt pos)).mpr bounded
  rw [pack_finite s minExponent pos, if_neg (by decide), if_neg (by omega)]

theorem pack_normal {m : Nat} {e : Int} (pos : 0 < m) (bounded : m < 2 ^ 53)
    (filled : 2 ^ 52 ≤ m) (greatest : e ≤ 971) :
    pack Format.binary64 (.finite s m e pos) =
      packComponents Format.binary64 s (.ofNat 11 (e + 1075).toNat) (.ofNat 52 m) := by
  have below := (Nat.log2_lt (Nat.ne_of_gt pos)).mpr bounded
  have above := (Nat.le_log2 (Nat.ne_of_gt pos)).mpr filled
  rw [pack_finite s e pos, if_neg (by omega), if_pos (by omega)]

end Fields

section Sign

/-- The sign of a number; NaN has none. -/
def sign? : UnpackedFloat → Option Sign
  | .infinity s | .zero s | .finite s .. => some s
  | .notANumber => none

variable {f : UnpackedFloat} {s : Sign}

theorem sign?_unpack_packComponents (s : Sign) {e : BitVec 11} {m : BitVec 52}
    (number : e = -1#11 → m = 0#52) :
    sign? (unpack Format.binary64 (packComponents Format.binary64 s e m)) = some s := by
  by_cases special : e = -1#11
  · subst special
    rw [unpack_special, if_pos (number rfl)]
    rfl
  · by_cases small : e = 0#11
    · subst small
      rw [unpack_small]
      split <;> rfl
    · rw [unpack_normal s m special small]
      rfl

/-- Packing keeps the sign, also of numbers that are too large or have too many digits. -/
theorem sign?_unpack_pack (h : sign? f = some s) :
    sign? (unpack Format.binary64 (pack Format.binary64 f)) = some s := by
  cases f with
  | notANumber => cases h
  | infinity | zero =>
      cases h
      exact sign?_unpack_packComponents s (fun _ => rfl)
  | finite sign m e pos =>
      cases h
      rw [pack_finite s e pos]
      split
      · exact sign?_unpack_packComponents s (fun _ => rfl)
      · next inRange =>
        apply sign?_unpack_packComponents
        intro special
        exfalso
        have field := congrArg BitVec.toNat special
        change _ = 2047 at field
        split at field
        · change (e + 1075).toNat % 2 ^ 11 = 2047 at field
          omega
        · cases field

end Sign

section Canonical

variable {s : Sign} {m : Nat} {e : Int} {pos : 0 < m}

theorem unpack_pack_small (bounded : m < 2 ^ 52) :
    unpack Format.binary64 (pack Format.binary64 (.finite s m minExponent pos)) =
      .finite s m minExponent pos := by
  have fraction : (BitVec.ofNat 52 m).toNat = m := Nat.mod_eq_of_lt bounded
  have nonzero : BitVec.ofNat 52 m ≠ 0#52 := by
    intro zero
    have := congrArg BitVec.toNat zero
    rw [fraction] at this
    exact Nat.ne_of_gt pos this
  have read := unpack_small s (.ofNat 52 m)
  rw [dif_neg nonzero] at read
  rw [pack_small s pos bounded]
  simpa only [fraction] using read

theorem unpack_pack_normal (filled : 2 ^ 52 ≤ m) (bounded : m < 2 ^ 53)
    (least : minExponent ≤ e) (greatest : e ≤ 971) :
    unpack Format.binary64 (pack Format.binary64 (.finite s m e pos)) = .finite s m e pos := by
  simp only [minExponent] at least
  have field : (BitVec.ofNat 11 (e + 1075).toNat).toNat = (e + 1075).toNat :=
    Nat.mod_eq_of_lt (by omega)
  have fraction : (BitVec.ofNat 52 m).toNat = m - 2 ^ 52 := by
    rw [BitVec.toNat_ofNat]
    omega
  have inRange : ∀ b : BitVec 11, b.toNat = 0 ∨ b.toNat = 2047 →
      BitVec.ofNat 11 (e + 1075).toNat ≠ b := by
    rintro b outside rfl
    omega
  rw [pack_normal s pos bounded filled greatest,
    unpack_normal s _ (inRange (-1#11) (.inr rfl)) (inRange 0#11 (.inl rfl))]
  simp only [field, fraction, UnpackedFloat.finite.injEq]
  exact ⟨trivial, by omega, by omega⟩

/-- The bits of a canonical number are read as that number. -/
theorem unpack_pack (h : Canonical ⟨m, e⟩) :
    unpack Format.binary64 (pack Format.binary64 (.finite s m e pos)) = .finite s m e pos := by
  by_cases small : m < 2 ^ 52
  · obtain rfl : e = minExponent := h.filled.resolve_right (Nat.not_le_of_lt small)
    exact unpack_pack_small small
  · exact unpack_pack_normal (Nat.le_of_not_lt small) h.bounded h.least h.greatest

end Canonical

section Double

variable {x : Float} {s : Sign} {e : BitVec 11} {fraction : BitVec 52}

theorem isNegative_of_fields
    (h : x.toBits.toBitVec = packComponents Format.binary64 s e fraction) :
    isNegative x = true ↔ s = .negative := by
  have he := e.isLt
  have hm := fraction.isLt
  have bits : x.toBits.toNat = _ :=
    (congrArg BitVec.toNat h).trans (toNat_packComponents s e fraction)
  rw [isNegative, bits, beq_iff_eq]
  cases s <;> simp [Sign.toBitVec, fractionBits, exponentBits] <;> omega

theorem magnitude_of_fields
    (h : x.toBits.toBitVec = packComponents Format.binary64 s e fraction) :
    magnitude x = if e = 0#11 then ⟨fraction.toNat, minExponent⟩
      else ⟨2 ^ 52 + fraction.toNat, e.toNat - 1075⟩ := by
  have he := e.isLt
  have hm := fraction.isLt
  have bits : x.toBits.toNat = _ :=
    (congrArg BitVec.toNat h).trans (toNat_packComponents s e fraction)
  have low : x.toBits.toNat % 2 ^ fractionBits = fraction.toNat := by
    simp only [bits, fractionBits]
    omega
  have field : x.toBits.toNat / 2 ^ fractionBits % 2 ^ exponentBits = e.toNat := by
    simp only [bits, fractionBits, exponentBits]
    omega
  have zero : e = 0#11 ↔ e.toNat = 0 := by
    simpa using (BitVec.toNat_inj (x := e) (y := 0#11)).symm
  simp only [magnitude, low, field, zero]
  split
  · rfl
  · simp only [fractionBits, minExponent, Magnitude.mk.injEq, true_and]
    omega

theorem unpack_of_fields
    (h : x.toBits.toBitVec = packComponents Format.binary64 s e fraction) :
    x.toModel.unpack = unpack Format.binary64 (packComponents Format.binary64 s e fraction) :=
  congrArg (unpack Format.binary64) h

/-- What a double stands for, with what its sign bit and its magnitude say about it. -/
theorem unpack_cases (x : Float) :
    x.toModel.unpack = .notANumber ∨ ∃ s, (isNegative x = true ↔ s = .negative) ∧
      (x.toModel.unpack = .infinity s ∨
        (x.toModel.unpack = .zero s ∧ magnitude x = ⟨0, minExponent⟩) ∨
        ∃ pos, x.toModel.unpack =
          .finite s (magnitude x).significand (magnitude x).exponent pos ∧
            Canonical (magnitude x)) := by
  obtain ⟨s, e, fraction, fields⟩ := exists_fields x.toBits.toBitVec
  have sign := isNegative_of_fields fields
  have hm : fraction.toNat < 2 ^ 52 := fraction.isLt
  have he : e.toNat < 2 ^ 11 := e.isLt
  rw [unpack_of_fields fields, magnitude_of_fields fields]
  by_cases special : e = -1#11
  · subst special
    rw [unpack_special]
    split
    · exact .inr ⟨s, sign, .inl rfl⟩
    · exact .inl rfl
  · refine .inr ⟨s, sign, .inr ?_⟩
    by_cases small : e = 0#11
    · subst small
      rw [unpack_small, if_pos rfl]
      split
      · next zero =>
        subst zero
        exact .inl ⟨rfl, rfl⟩
      · next nonzero =>
        have pos : 0 < fraction.toNat := by
          simpa [BitVec.toNat_pos, BitVec.pos_iff_ne_zero] using nonzero
        refine .inr ⟨pos, rfl, pos, ?_, Int.le_refl _, ?_, .inl rfl⟩
        · exact Nat.lt_trans hm (by decide)
        · show minExponent ≤ 971
          decide
    · have notSpecial : e.toNat ≠ 2047 := fun eq => special (BitVec.eq_of_toNat_eq eq)
      have notSmall : e.toNat ≠ 0 := fun eq => small (BitVec.eq_of_toNat_eq eq)
      rw [unpack_normal s fraction special small, if_neg small]
      have pos : 0 < 2 ^ 52 + fraction.toNat := by omega
      refine .inr ⟨pos, rfl, pos, ?_, ?_, ?_, .inr (Nat.le_add_right _ _)⟩
      · show 2 ^ 52 + fraction.toNat < 2 ^ 53
        omega
      · show -1074 ≤ (e.toNat : Int) - 1075
        omega
      · show (e.toNat : Int) - 1075 ≤ 971
        omega

/-- The magnitude of a finite double fits. -/
theorem fits_magnitude (finite : x.isFinite = true) : (magnitude x).Fits := by
  have number : x.toModel.unpack.isFinite = true := finite
  rcases unpack_cases x with nan | ⟨s, _, infinite | ⟨_, digits⟩ | ⟨_, _, canonical⟩⟩
  · rw [nan] at number
    cases number
  · rw [infinite] at number
    cases number
  · rw [digits]
    exact ⟨Nat.two_pow_pos 53, le_rfl, by decide⟩
  · exact ⟨canonical.bounded, canonical.least, canonical.greatest⟩

/-- The bits of a double are those of what it stands for. -/
theorem pack_unpack_double (x : Float) : Float.ofModel (.pack x.toModel.unpack) = x :=
  Float.ofBits_toBits x

/-- The negative zero is neutral for addition, unlike the positive one. -/
theorem neg_zero_add (x : Float) : -0 + x = x := by
  have zero : (-0 : Float) = .ofModel (.pack (.zero .negative)) := by decide +kernel
  have unpacked : (-0 : Float).toModel.unpack = .zero .negative := by
    rw [zero]
    rfl
  have unchanged : UnpackedFloat.add Format.binary64 (.zero .negative) x.toModel.unpack =
      x.toModel.unpack := by
    cases x.toModel.unpack with
    | zero s => cases s <;> rfl
    | notANumber | infinity | finite => rfl
  show Float.ofModel (.pack (UnpackedFloat.add Format.binary64 (-0 : Float).toModel.unpack
    x.toModel.unpack)) = x
  rw [unpacked, unchanged, pack_unpack_double]

theorem abs_of_sign (h : sign? x.toModel.unpack = some .positive) : x.abs = x := by
  have unchanged : x.toModel.unpack.abs = x.toModel.unpack := by
    cases unpacked : x.toModel.unpack with
    | notANumber => rfl
    | infinity sign | zero sign | finite sign =>
        rw [unpacked] at h
        cases h
        rfl
  show Float.ofModel (.pack x.toModel.unpack.abs) = x
  rw [unchanged, pack_unpack_double]

theorem isFinite_eq (x : Float) : x.isFinite = !(x.isNaN || x.isInf) := by
  show x.toModel.unpack.isFinite = !(x.toModel.unpack.isNaN || x.toModel.unpack.isInf)
  cases x.toModel.unpack <;> rfl

theorem unpack_of_isNaN (nan : x.isNaN = true) : x.toModel.unpack = .notANumber := by
  have unpacked : x.toModel.unpack.isNaN = true := nan
  generalize x.toModel.unpack = f at unpacked
  cases f with
  | notANumber => rfl
  | infinity | zero | finite => cases unpacked

theorem unpack_of_isInf (inf : x.isInf = true) : ∃ s, x.toModel.unpack = .infinity s := by
  have unpacked : x.toModel.unpack.isInf = true := inf
  generalize x.toModel.unpack = f at unpacked
  cases f with
  | infinity s => exact ⟨s, rfl⟩
  | notANumber | zero | finite => cases unpacked

theorem isNaN_of_isInf (inf : x.isInf = true) : x.isNaN = false := by
  obtain ⟨s, unpacked⟩ := unpack_of_isInf inf
  show x.toModel.unpack.isNaN = false
  rw [unpacked]
  rfl

theorem isNegative_iff_of_sign (h : sign? x.toModel.unpack = some s) :
    isNegative x = true ↔ s = .negative := by
  rcases unpack_cases x with nan | ⟨s', negative, kind⟩
  · rw [nan] at h
    cases h
  · have own : sign? x.toModel.unpack = some s' := by
      rcases kind with unpacked | ⟨unpacked, _⟩ | ⟨_, unpacked, _⟩ <;> rw [unpacked] <;> rfl
    rwa [Option.some.inj (h.symm.trans own)]

/-- A double has a positive sign if it is a number and has no sign bit. -/
theorem sign?_eq_positive_iff :
    sign? x.toModel.unpack = some .positive ↔ x.isNaN = false ∧ isNegative x = false := by
  show _ ↔ x.toModel.unpack.isNaN = false ∧ _
  rcases unpack_cases x with nan | ⟨s, negative, kind⟩
  · rw [nan]
    exact ⟨nofun, nofun⟩
  · have signed : sign? x.toModel.unpack = some s ∧ x.toModel.unpack.isNaN = false := by
      rcases kind with unpacked | ⟨unpacked, _⟩ | ⟨_, unpacked, _⟩ <;> rw [unpacked] <;>
        exact ⟨rfl, rfl⟩
    rw [signed.1, signed.2]
    cases s <;> simp_all

/-- There is one infinity without a sign bit. -/
theorem eq_infinity (inf : x.isInf = true) (nonnegative : isNegative x = false) :
    x = .ofModel (.pack (.infinity .positive)) := by
  have sign := sign?_eq_positive_iff.mpr ⟨isNaN_of_isInf inf, nonnegative⟩
  obtain ⟨s, unpacked⟩ := unpack_of_isInf inf
  rw [unpacked] at sign
  obtain rfl := Option.some.inj sign
  rw [← unpacked, pack_unpack_double]

/-- A finite double without a sign bit stands for its magnitude. -/
theorem unpack_eq_magnitude (finite : x.isFinite = true) (nonnegative : isNegative x = false) :
    x.toModel.unpack = .zero .positive ∧ magnitude x = ⟨0, minExponent⟩ ∨
      ∃ pos, x.toModel.unpack =
        .finite .positive (magnitude x).significand (magnitude x).exponent pos ∧
          Canonical (magnitude x) := by
  have number : x.toModel.unpack.isFinite = true := finite
  rcases unpack_cases x with nan | ⟨s, negative, kind⟩
  · rw [nan] at number
    cases number
  · obtain rfl : s = .positive := by cases s <;> simp_all
    rcases kind with infinite | zero | finite
    · rw [infinite] at number
      cases number
    · exact .inl zero
    · exact .inr finite

end Double

end Reckoner.Binary64
