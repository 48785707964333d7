/-!
# Reading UTF-8

The first octet of a character says how many more belong to it and which range the next one lies
in; the octets after that are all from `80` to `BF`. Where a character breaks off, the octets that
could have started one are read as a single replacement character and reading goes on behind them.
On valid UTF-8 nothing is replaced.
-/

namespace Reckoner.Text.Utf8

/-- What may follow the first octet of a character: how many octets, and the range of the next. -/
structure Lead where
  owed : Nat
  low : UInt8 := 0x80
  high : UInt8 := 0xBF
  deriving DecidableEq, Repr

/-- The characters of a first octet; the narrower ranges keep out overlong forms, surrogates and
code points beyond the last. -/
def lead? (b : UInt8) : Option Lead :=
  if b ≤ 0x7F then some { owed := 0 }
  else if 0xC2 ≤ b ∧ b ≤ 0xDF then some { owed := 1 }
  else if b = 0xE0 then some { owed := 2, low := 0xA0 }
  else if b = 0xED then some { owed := 2, high := 0x9F }
  else if 0xE1 ≤ b ∧ b ≤ 0xEF then some { owed := 2 }
  else if b = 0xF0 then some { owed := 3, low := 0x90 }
  else if b = 0xF4 then some { owed := 3, high := 0x8F }
  else if 0xF1 ≤ b ∧ b ≤ 0xF3 then some { owed := 3 }
  else none

/-- The octets at the front of `bs` that continue a character, at most as many as are owed. -/
def tail (lead : Lead) : List UInt8 → List UInt8
  | [] => []
  | b :: bs =>
    match lead.owed with
    | 0 => []
    | n + 1 => if lead.low ≤ b ∧ b ≤ lead.high then b :: tail { owed := n } bs else []

/-- Stands for octets that are no character. -/
def replacement : Char := '\uFFFD'

/-- The character of a first octet and all that it owes. -/
def assemble (b : UInt8) (tail : List UInt8) : Char :=
  let first :=
    match tail.length with
    | 0 => b.toNat
    | 1 => b.toNat - 0xC0
    | 2 => b.toNat - 0xE0
    | _ => b.toNat - 0xF0
  Char.ofNat (tail.foldl (fun value octet => value * 64 + (octet.toNat - 0x80)) first)

/-- The character that starts with octet `b`, and the number of octets of `bs` that it takes. -/
def next (b : UInt8) (bs : List UInt8) : Char × Nat :=
  match lead? b with
  | none => (replacement, 0)
  | some lead =>
    let octets := tail lead bs
    (if octets.length = lead.owed then assemble b octets else replacement, octets.length)

/-- The text that octets write. -/
def decode : List UInt8 → List Char
  | [] => []
  | b :: bs =>
    let (c, taken) := next b bs
    c :: decode (bs.drop taken)
termination_by bs => bs.length
decreasing_by
  simp only [List.length_drop, List.length_cons]
  omega

end Reckoner.Text.Utf8
