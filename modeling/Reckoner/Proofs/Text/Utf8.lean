import Reckoner.Text.Utf8

/-!
# Decoding what was encoded

A character is written in one to four octets. The first one tells how many follow and its range
keeps out what a shorter form could write, so reading takes exactly the octets of the character
and gives it back, whatever comes next. An octet below `80` continues no character, so it starts
one wherever it stands, even behind a character that breaks off.
-/

namespace Reckoner.Text.Utf8

/-- The octets that write a text. -/
def encode (cs : List Char) : List UInt8 :=
  cs.flatMap String.utf8EncodeChar

section Lead

variable {b : UInt8}

theorem lead?_one (high : b.toNat ≤ 0x7F) : lead? b = some { owed := 0 } := by
  simp only [lead?, UInt8.le_iff_toNat_le, UInt8.reduceToNat]
  rw [if_pos high]

theorem lead?_two (low : 0xC2 ≤ b.toNat) (high : b.toNat ≤ 0xDF) :
    lead? b = some { owed := 1 } := by
  simp only [lead?, UInt8.le_iff_toNat_le, UInt8.reduceToNat]
  rw [if_neg (by omega), if_pos ⟨low, high⟩]

theorem lead?_three (low : 0xE0 ≤ b.toNat) (high : b.toNat ≤ 0xEF) :
    lead? b = some
      { owed := 2
        low := if b.toNat = 0xE0 then 0xA0 else 0x80
        high := if b.toNat = 0xED then 0x9F else 0xBF } := by
  simp only [lead?, UInt8.le_iff_toNat_le, ← UInt8.toNat_inj, UInt8.reduceToNat]
  rw [if_neg (by omega), if_neg (by omega)]
  by_cases shortest : b.toNat = 0xE0
  · simp [shortest]
  · by_cases surrogate : b.toNat = 0xED
    · simp [surrogate]
    · simp [shortest, surrogate, show 0xE1 ≤ b.toNat by omega, high]

theorem lead?_four (low : 0xF0 ≤ b.toNat) (high : b.toNat ≤ 0xF4) :
    lead? b = some
      { owed := 3
        low := if b.toNat = 0xF0 then 0x90 else 0x80
        high := if b.toNat = 0xF4 then 0x8F else 0xBF } := by
  simp only [lead?, UInt8.le_iff_toNat_le, ← UInt8.toNat_inj, UInt8.reduceToNat]
  rw [if_neg (by omega), if_neg (by omega), if_neg (by omega), if_neg (by omega),
    if_neg (by omega)]
  by_cases shortest : b.toNat = 0xF0
  · simp [shortest]
  · by_cases greatest : b.toNat = 0xF4
    · simp [greatest]
    · simp [shortest, greatest, show 0xF1 ≤ b.toNat by omega, show b.toNat ≤ 0xF3 by omega]

/-- No character is continued by an octet below `80`. -/
theorem low_of_lead? {lead : Lead} (h : lead? b = some lead) : 0x80 ≤ lead.low := by
  unfold lead? at h
  repeat' split at h
  all_goals
    cases h
  all_goals decide

end Lead

@[simp] theorem tail_zero (low high : UInt8) (bs : List UInt8) :
    tail { owed := 0, low, high } bs = [] := by
  cases bs <;> rfl

theorem tail_succ {n : Nat} {low high x : UInt8} (within : low ≤ x ∧ x ≤ high) (bs : List UInt8) :
    tail { owed := n + 1, low, high } (x :: bs) = x :: tail { owed := n } bs := by
  simp [tail, within]

/-- The octet of the last six bits of a number, as it stands behind the first one. -/
def continuation (v : Nat) : UInt8 :=
  UInt8.ofNat (v % 64 + 128)

theorem toNat_continuation (v : Nat) : (continuation v).toNat = v % 64 + 128 := by
  rw [continuation, UInt8.toNat_ofNat']
  omega

theorem continuation_within (v : Nat) : 0x80 ≤ continuation v ∧ continuation v ≤ 0xBF := by
  simp only [UInt8.le_iff_toNat_le, toNat_continuation, UInt8.reduceToNat]
  omega

section Next

variable {v : Nat} {b : UInt8}

theorem next_one (high : v ≤ 0x7F) (first : b.toNat = v) (bs : List UInt8) :
    next b bs = (Char.ofNat v, 0) := by
  rw [next, lead?_one (by omega)]
  simp [assemble, first]

theorem next_two (low : 0x7F < v) (high : v ≤ 0x7FF) (first : b.toNat = v / 64 + 0xC0)
    (bs : List UInt8) : next b (continuation v :: bs) = (Char.ofNat v, 1) := by
  have value : v / 64 * 64 + v % 64 = v := by omega
  rw [next, lead?_two (by omega) (by omega)]
  simp [tail_succ (continuation_within v), assemble, first, toNat_continuation, value]

theorem next_three (low : 0x7FF < v) (high : v ≤ 0xFFFF) (valid : v.isValidChar)
    (first : b.toNat = v / 4096 + 0xE0) (bs : List UInt8) :
    next b (continuation (v / 64) :: continuation v :: bs) = (Char.ofNat v, 2) := by
  have within : (if b.toNat = 0xE0 then (0xA0 : UInt8) else 0x80) ≤ continuation (v / 64) ∧
      continuation (v / 64) ≤ if b.toNat = 0xED then (0x9F : UInt8) else 0xBF := by
    simp only [UInt8.le_iff_toNat_le, toNat_continuation, apply_ite UInt8.toNat,
      UInt8.reduceToNat, first]
    rcases valid with below | above <;> constructor <;> split <;> omega
  have value : (v / 4096 * 64 + v / 64 % 64) * 64 + v % 64 = v := by omega
  rw [next, lead?_three (by omega) (by omega)]
  simp only [tail_succ within, tail_succ (continuation_within v), tail_zero]
  simp [assemble, first, toNat_continuation, value]

theorem next_four (low : 0xFFFF < v) (valid : v.isValidChar)
    (first : b.toNat = v / 262144 + 0xF0) (bs : List UInt8) :
    next b (continuation (v / 4096) :: continuation (v / 64) :: continuation v :: bs) =
      (Char.ofNat v, 3) := by
  have high : v < 0x110000 := by
    rcases valid with below | above <;> omega
  have within : (if b.toNat = 0xF0 then (0x90 : UInt8) else 0x80) ≤ continuation (v / 4096) ∧
      continuation (v / 4096) ≤ if b.toNat = 0xF4 then (0x8F : UInt8) else 0xBF := by
    simp only [UInt8.le_iff_toNat_le, toNat_continuation, apply_ite UInt8.toNat,
      UInt8.reduceToNat, first]
    constructor <;> split <;> omega
  have value : ((v / 262144 * 64 + v / 4096 % 64) * 64 + v / 64 % 64) * 64 + v % 64 = v := by omega
  rw [next, lead?_four (by omega) (by omega)]
  simp only [tail_succ within, tail_succ (continuation_within (v / 64)),
    tail_succ (continuation_within v), tail_zero]
  simp [assemble, first, toNat_continuation, value]

end Next

/-- Reading takes exactly the octets of a character and gives it back. -/
theorem exists_next (c : Char) (bs : List UInt8) :
    ∃ b octets, String.utf8EncodeChar c = b :: octets ∧
      next b (octets ++ bs) = (c, octets.length) := by
  have char : Char.ofNat c.toNat = c := Char.ofNat_toNat c
  have valid : c.toNat.isValidChar := c.valid
  have first {n m : Nat} (fits : n < 256) (same : n = m) : (UInt8.ofNat n).toNat = m := by
    rw [UInt8.toNat_ofNat']
    omega
  simp only [String.utf8EncodeChar, Char.toNat_val]
  generalize c.toNat = v at char valid ⊢
  subst char
  split
  · next one => exact ⟨_, _, rfl, next_one one (first (by omega) rfl) bs⟩
  · split
    · next two => exact ⟨_, _, rfl, next_two (by omega) two (first (by omega) (by omega)) bs⟩
    · split
      · next three =>
        exact ⟨_, _, rfl, next_three (by omega) three valid (first (by omega) (by omega)) bs⟩
      · exact ⟨_, _, rfl, next_four (by omega) valid (first (by omega) (by omega)) bs⟩

theorem decode_cons (b : UInt8) (bs : List UInt8) :
    decode (b :: bs) = (next b bs).1 :: decode (bs.drop (next b bs).2) := by
  rw [decode]

theorem decode_encode_append (cs : List Char) (bs : List UInt8) :
    decode (encode cs ++ bs) = cs ++ decode bs := by
  induction cs with
  | nil => rfl
  | cons c cs ih =>
      obtain ⟨b, octets, written, read⟩ := exists_next c (encode cs ++ bs)
      have front : encode (c :: cs) ++ bs = b :: (octets ++ (encode cs ++ bs)) := by
        simp [encode, written]
      rw [front, decode_cons, read, List.drop_left, ih, List.cons_append]

/-- What was encoded is decoded to the same text. -/
theorem decode_encode (cs : List Char) : decode (encode cs) = cs := by
  simpa [decode] using decode_encode_append cs []

section Ascii

variable {b : UInt8} {lead : Lead}

theorem not_continues (low : 0x80 ≤ lead.low) (ascii : b < 0x80) :
    ¬ (lead.low ≤ b ∧ b ≤ lead.high) := by
  rintro ⟨within, _⟩
  exact UInt8.lt_irrefl b (UInt8.lt_of_lt_of_le ascii (UInt8.le_trans low within))

/-- An octet below `80` ends the octets of the character before it. -/
theorem tail_append (low : 0x80 ≤ lead.low) (ascii : b < 0x80) (bs rest : List UInt8) :
    tail lead (bs ++ b :: rest) = tail lead bs := by
  induction bs generalizing lead with
  | nil =>
      cases owed : lead.owed with
      | zero => simp [tail, owed]
      | succ n => simp [tail, owed, not_continues low ascii]
  | cons x bs ih =>
      cases owed : lead.owed with
      | zero => simp [tail, owed]
      | succ n =>
          have behind : tail { owed := n } (bs ++ b :: rest) = tail { owed := n } bs :=
            ih (UInt8.le_refl 0x80)
          simp [tail, owed, behind]

theorem next_append (ascii : b < 0x80) (x : UInt8) (bs rest : List UInt8) :
    next x (bs ++ b :: rest) = next x bs := by
  unfold next
  cases found : lead? x with
  | none => rfl
  | some lead => simp only [tail_append (low_of_lead? found) ascii]

theorem tail_isPrefix (lead : Lead) (bs : List UInt8) : tail lead bs <+: bs := by
  induction bs generalizing lead with
  | nil => exact List.prefix_refl _
  | cons x bs ih =>
      cases owed : lead.owed with
      | zero => simp [tail, owed]
      | succ n =>
          simp only [tail, owed]
          split
          · exact List.cons_prefix_cons.mpr ⟨rfl, ih _⟩
          · exact List.nil_prefix

theorem next_le (x : UInt8) (bs : List UInt8) : (next x bs).2 ≤ bs.length := by
  unfold next
  split
  · exact Nat.zero_le _
  · exact (tail_isPrefix _ bs).length_le

/-- An octet below `80` starts a character, whatever is in front of it. -/
theorem decode_append (ascii : b < 0x80) (bs rest : List UInt8) :
    decode (bs ++ b :: rest) = decode bs ++ decode (b :: rest) := by
  fun_induction decode bs with
  | case1 => rfl
  | case2 x bs c taken read ih =>
      rw [List.cons_append, decode_cons, next_append ascii, read,
        List.drop_append_of_le_length (by simpa [read] using next_le x bs), ih, List.cons_append]

end Ascii

end Reckoner.Text.Utf8
