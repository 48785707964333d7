import Reckoner.Proofs.Text.Lines

/-!
# Octets that write no text

Where octets are read without a replacement, they are the octets of the characters read. So octets
that are not valid UTF-8 leave a replacement character in the text that is read from them, whatever
stands around the fault, and as this character is no blank it is not trimmed away.
-/

namespace Reckoner.Text

namespace Utf8

/-- The octets are UTF-8. -/
def Valid (bs : List UInt8) : Prop :=
  (ByteArray.mk bs.toArray).IsValidUTF8

theorem valid_iff {bs : List UInt8} : Valid bs ↔ ∃ cs, encode cs = bs := by
  have written (cs : List Char) : ByteArray.mk bs.toArray = cs.utf8Encode ↔ encode cs = bs := by
    rw [List.utf8Encode, ← encode]
    constructor
    · intro same
      have octets := congrArg (fun a => a.data.toList) same
      simpa using octets.symm
    · rintro rfl
      ext1
      simp
  constructor
  · rintro ⟨cs, same⟩
    exact ⟨cs, (written cs).mp same⟩
  · rintro ⟨cs, same⟩
    exact ⟨cs, (written cs).mpr same⟩

section Assemble

variable {b x y z : UInt8} {v : Nat}

/-- An octet behind the first one of a character, unless the first one narrows its range. -/
def Continues (x : UInt8) : Prop :=
  0x80 ≤ x.toNat ∧ x.toNat ≤ 0xBF

theorem toNat_ofNat (valid : v.isValidChar) : (Char.ofNat v).toNat = v := by
  rw [Char.ofNat, dif_pos valid]
  rfl

theorem encode_one (high : b.toNat ≤ 0x7F) : String.utf8EncodeChar (assemble b []) = [b] := by
  have valid : b.toNat.isValidChar := .inl (by omega)
  simp only [assemble, List.length_nil, List.foldl_nil, String.utf8EncodeChar, Char.toNat_val,
    toNat_ofNat valid]
  rw [if_pos high, UInt8.ofNat_toNat]

theorem encode_two (low : 0xC2 ≤ b.toNat) (high : b.toNat ≤ 0xDF) (hx : Continues x) :
    String.utf8EncodeChar (assemble b [x]) = [b, x] := by
  obtain ⟨lowX, highX⟩ := hx
  obtain ⟨v, value⟩ : ∃ v, v = (b.toNat - 0xC0) * 64 + (x.toNat - 0x80) := ⟨_, rfl⟩
  have valid : v.isValidChar := .inl (by omega)
  have char : assemble b [x] = Char.ofNat v := by rw [value]; rfl
  simp only [char, String.utf8EncodeChar, Char.toNat_val, toNat_ofNat valid]
  rw [if_neg (by omega), if_pos (by omega)]
  simp only [List.cons.injEq, ← UInt8.toNat_inj, UInt8.toNat_ofNat', and_true]
  omega

theorem encode_three (low : 0xE0 ≤ b.toNat) (high : b.toNat ≤ 0xEF) (hx : Continues x)
    (hy : Continues y) (long : b.toNat = 0xE0 → 0xA0 ≤ x.toNat)
    (noSurrogate : b.toNat = 0xED → x.toNat ≤ 0x9F) :
    String.utf8EncodeChar (assemble b [x, y]) = [b, x, y] := by
  obtain ⟨lowX, highX⟩ := hx
  obtain ⟨lowY, highY⟩ := hy
  obtain ⟨v, value⟩ :
    ∃ v, v = ((b.toNat - 0xE0) * 64 + (x.toNat - 0x80)) * 64 + (y.toNat - 0x80) := ⟨_, rfl⟩
  have valid : v.isValidChar := by
    by_cases below : v < 0xD800
    · exact .inl below
    · exact .inr ⟨by omega, by omega⟩
  have char : assemble b [x, y] = Char.ofNat v := by rw [value]; rfl
  simp only [char, String.utf8EncodeChar, Char.toNat_val, toNat_ofNat valid]
  rw [if_neg (by omega), if_neg (by omega), if_pos (by omega)]
  simp only [List.cons.injEq, ← UInt8.toNat_inj, UInt8.toNat_ofNat', and_true]
  omega

theorem encode_four (low : 0xF0 ≤ b.toNat) (high : b.toNat ≤ 0xF4) (hx : Continues x)
    (hy : Continues y) (hz : Continues z) (long : b.toNat = 0xF0 → 0x90 ≤ x.toNat)
    (inRange : b.toNat = 0xF4 → x.toNat ≤ 0x8F) :
    String.utf8EncodeChar (assemble b [x, y, z]) = [b, x, y, z] := by
  obtain ⟨lowX, highX⟩ := hx
  obtain ⟨lowY, highY⟩ := hy
  obtain ⟨lowZ, highZ⟩ := hz
  obtain ⟨v, value⟩ : ∃ v, v = (((b.toNat - 0xF0) * 64 + (x.toNat - 0x80)) * 64 +
    (y.toNat - 0x80)) * 64 + (z.toNat - 0x80) := ⟨_, rfl⟩
  have valid : v.isValidChar := .inr ⟨by omega, by omega⟩
  have char : assemble b [x, y, z] = Char.ofNat v := by rw [value]; rfl
  simp only [char, String.utf8EncodeChar, Char.toNat_val, toNat_ofNat valid]
  rw [if_neg (by omega), if_neg (by omega), if_neg (by omega)]
  simp only [List.cons.injEq, ← UInt8.toNat_inj, UInt8.toNat_ofNat', and_true]
  omega

end Assemble

section Next

variable {b : UInt8} {bs : List UInt8} {lead : Lead}

/-- The octets of a character that does not break off: the first in the range of the lead, the
others in the range that all share. -/
theorem tail_full {n : Nat} (owed : lead.owed = n + 1) (full : (tail lead bs).length = n + 1) :
    ∃ x rest, tail lead bs = x :: tail { owed := n } rest ∧
      (lead.low ≤ x ∧ x ≤ lead.high) ∧ (tail { owed := n } rest).length = n := by
  cases bs with
  | nil => cases full
  | cons x rest =>
      simp only [tail, owed] at full ⊢
      split at full
      · next within =>
        rw [if_pos within]
        exact ⟨x, rest, rfl, within, Nat.succ.inj full⟩
      · cases full

/-- The first octets by what they owe, with the ranges that keep out longer forms than needed,
surrogates and what is beyond the last character. -/
theorem lead?_cases (h : lead? b = some lead) :
    (0x80 ≤ lead.low.toNat ∧ lead.high.toNat ≤ 0xBF) ∧
    (lead.owed = 0 ∧ b.toNat ≤ 0x7F ∨
      lead.owed = 1 ∧ 0xC2 ≤ b.toNat ∧ b.toNat ≤ 0xDF ∨
      lead.owed = 2 ∧ 0xE0 ≤ b.toNat ∧ b.toNat ≤ 0xEF ∧
        (b.toNat = 0xE0 → 0xA0 ≤ lead.low.toNat) ∧ (b.toNat = 0xED → lead.high.toNat ≤ 0x9F) ∨
      lead.owed = 3 ∧ 0xF0 ≤ b.toNat ∧ b.toNat ≤ 0xF4 ∧
        (b.toNat = 0xF0 → 0x90 ≤ lead.low.toNat) ∧ (b.toNat = 0xF4 → lead.high.toNat ≤ 0x8F)) := by
  simp only [lead?, UInt8.le_iff_toNat_le, ← UInt8.toNat_inj, UInt8.reduceToNat] at h
  repeat' split at h
  all_goals
    cases h
  all_goals
    simp only [UInt8.reduceToNat]
    grind

/-- The octets that are read as a character without a replacement are those that write it. -/
theorem encode_assemble (found : lead? b = some lead) (full : (tail lead bs).length = lead.owed) :
    String.utf8EncodeChar (assemble b (tail lead bs)) = b :: tail lead bs := by
  obtain ⟨⟨low, high⟩, kind⟩ := lead?_cases found
  have first {x : UInt8} (within : lead.low ≤ x ∧ x ≤ lead.high) :
      lead.low.toNat ≤ x.toNat ∧ x.toNat ≤ lead.high.toNat := within
  have behind {x : UInt8} (within : (0x80 : UInt8) ≤ x ∧ x ≤ 0xBF) : Continues x := within
  rcases kind with ⟨owed, one⟩ | ⟨owed, least, most⟩ | ⟨owed, least, most, long, surrogate⟩ |
    ⟨owed, least, most, long, last⟩
  · rw [List.length_eq_zero_iff.mp (full.trans owed)]
    exact encode_one one
  · obtain ⟨x, rest, octets, within, full⟩ := tail_full owed (full.trans owed)
    have := first within
    rw [octets, List.length_eq_zero_iff.mp full]
    exact encode_two least most ⟨by omega, by omega⟩
  · obtain ⟨x, rest, octets, within, full⟩ := tail_full owed (full.trans owed)
    obtain ⟨y, rest, others, withinY, full⟩ := tail_full rfl full
    have := first within
    rw [octets, others, List.length_eq_zero_iff.mp full]
    exact encode_three least most ⟨by omega, by omega⟩ (behind withinY) (by omega) (by omega)
  · obtain ⟨x, rest, octets, within, full⟩ := tail_full owed (full.trans owed)
    obtain ⟨y, rest, others, withinY, full⟩ := tail_full rfl full
    obtain ⟨z, rest, final, withinZ, full⟩ := tail_full rfl full
    have := first within
    rw [octets, others, final, List.length_eq_zero_iff.mp full]
    exact encode_four least most ⟨by omega, by omega⟩ (behind withinY) (behind withinZ) (by omega)
      (by omega)

theorem encode_next (kept : (next b bs).1 ≠ replacement) :
    String.utf8EncodeChar (next b bs).1 = b :: bs.take (next b bs).2 := by
  unfold next at kept ⊢
  cases found : lead? b with
  | none =>
      rw [found] at kept
      exact absurd rfl kept
  | some lead =>
      simp only [found] at kept ⊢
      split at kept
      · next full =>
        rw [if_pos full, encode_assemble found full,
          ← List.prefix_iff_eq_take.mp (tail_isPrefix lead bs)]
      · exact absurd rfl kept

/-- Octets that are read without a replacement are those of the text read. -/
theorem encode_decode (kept : replacement ∉ decode bs) : encode (decode bs) = bs := by
  fun_induction decode bs with
  | case1 => rfl
  | case2 b bs c taken read ih =>
      rw [List.mem_cons, not_or] at kept
      have first : c ≠ replacement → String.utf8EncodeChar c = b :: bs.take taken := by
        have whole := @encode_next b bs
        rwa [read] at whole
      show String.utf8EncodeChar c ++ encode (decode (bs.drop taken)) = b :: bs
      rw [first (Ne.symm kept.1), ih kept.2, List.cons_append, List.take_append_drop]

/-- Where octets are not UTF-8, a replacement is read. -/
theorem replacement_mem_decode (invalid : ¬ Valid bs) : replacement ∈ decode bs := by
  by_contra kept
  exact invalid (valid_iff.mpr ⟨_, encode_decode kept⟩)

theorem valid_iff_encode_decode : Valid bs ↔ encode (decode bs) = bs := by
  rw [valid_iff]
  refine ⟨?_, fun same => ⟨_, same⟩⟩
  rintro ⟨cs, rfl⟩
  rw [decode_encode]

instance : Decidable (Valid bs) :=
  decidable_of_iff _ valid_iff_encode_decode.symm

end Next

end Utf8

theorem not_isBlank_replacement : ¬ isBlank Utf8.replacement := by
  decide

theorem mem_trim {c : Char} {cs : List Char} (member : c ∈ cs) (visible : ¬ isBlank c) :
    c ∈ trim cs := by
  obtain ⟨front, back, whole, blank, _, _⟩ := trimmed_trim cs
  rw [whole, List.mem_append, List.mem_append] at member
  rcases member with (inFront | inside) | inBack
  · exact absurd (blank c (List.mem_append_left _ inFront)) visible
  · exact inside
  · exact absurd (blank c (List.mem_append_right _ inBack)) visible

/-- The replacement that octets leave when they are not UTF-8 is not trimmed away. -/
theorem replacement_mem_trim {line : List UInt8} (invalid : ¬ Utf8.Valid line) :
    Utf8.replacement ∈ trim (Utf8.decode line) :=
  mem_trim (Utf8.replacement_mem_decode invalid) not_isBlank_replacement

end Reckoner.Text
