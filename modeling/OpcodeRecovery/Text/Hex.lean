/-!
Hexadecimal text. Numbers are written in base sixteen with the digits `0` to `9` and `a`
to `f`, or `A` to `F`, and filled up with zeros on the left to a least width; a number that
needs more digits than the width gets them all. Byte strings are written with two digits a
byte. Reading accepts digits of either case.
-/

namespace OpcodeRecovery

namespace Hex

/-- The case of the digits above nine. -/
inductive Case where
  | lower
  | upper
  deriving DecidableEq, Repr

/-- The digits of a number, most significant first, filled up with zeros to `width`. -/
def digits (c : Case) (width n : Nat) : List Char :=
  let ds := (Nat.toDigits 16 n).map fun d => if c = .upper then d.toUpper else d
  List.replicate (width - ds.length) '0' ++ ds

/-- Lower-case hexadecimal, at least `width` digits. -/
def lower (width n : Nat) : String := String.ofList (digits .lower width n)

/-- Upper-case hexadecimal, at least `width` digits. -/
def upper (width n : Nat) : String := String.ofList (digits .upper width n)

/-- A byte string, two digits a byte. -/
def ofBytes (bs : List UInt8) : String := String.join (bs.map fun b => lower 2 b.toNat)

/-! ### Reading -/

/-- The value of a digit. -/
def digitValue? (c : Char) : Option Nat :=
  if '0' ≤ c ∧ c ≤ '9' then some (c.toNat - '0'.toNat)
  else if 'a' ≤ c ∧ c ≤ 'f' then some (c.toNat - 'a'.toNat + 10)
  else if 'A' ≤ c ∧ c ≤ 'F' then some (c.toNat - 'A'.toNat + 10)
  else none

/-- The number that digits spell, most significant first. -/
def toNat? (s : String) : Option Nat :=
  s.toList.foldlM (fun n c => (digitValue? c).map (16 * n + ·)) 0

/-- The bytes that pairs of digits spell. -/
def bytesOfDigits? : List Char → Option (List UInt8)
  | [] => some []
  | [_] => none
  | a :: b :: rest => do
    let high ← digitValue? a
    let low ← digitValue? b
    let bytes ← bytesOfDigits? rest
    return UInt8.ofNat (16 * high + low) :: bytes

/-- The byte string that a text spells. -/
def toBytes? (s : String) : Option (List UInt8) := bytesOfDigits? s.toList

end Hex

end OpcodeRecovery
