import OpcodeRecovery.Bytes.SevenBit
import OpcodeRecovery.Error

/-!
Cursors: a byte string with a position in it, and reads that move the position.

A cursor never stands behind the end of its data (`Cursor.position_le`). Every read returns
the cursor to go on with, also when it fails: a failed read of a number or of raw bytes
leaves the position where it was, while a failed seven-bit integer leaves it behind the
bytes that were consumed.
-/

namespace OpcodeRecovery

/-- A position in a byte string. -/
structure Cursor where
  data : Bytes
  position : Nat
  position_le : position ≤ data.length

namespace Cursor

/-- The widths and signs of the numbers a cursor reads. -/
inductive NumberKind where
  | u8 | i8 | u16 | i16 | u32 | i32 | u64 | i64
  deriving DecidableEq, Repr

namespace NumberKind

/-- The bytes a number takes. -/
def width : NumberKind → Nat
  | u8 | i8 => 1
  | u16 | i16 => 2
  | u32 | i32 => 4
  | u64 | i64 => 8

/-- Whether the top bit counts negatively. -/
def signed : NumberKind → Bool
  | i8 | i16 | i32 | i64 => true
  | _ => false

/-- All kinds of numbers. -/
def all : List NumberKind := [u8, i8, u16, i16, u32, i32, u64, i64]

/-- The name of a kind: its sign and its number of bits. -/
def name (kind : NumberKind) : String :=
  (if kind.signed then "i" else "u") ++ toString (8 * kind.width)

/-- The kind of a name. -/
def ofName? (s : String) : Option NumberKind := all.find? (·.name == s)

/-- The value of a bit pattern of this kind. -/
def interpret (kind : NumberKind) (bits : Nat) : Int :=
  if kind.signed then Int.bmod bits (Bytes.capacity kind.width) else bits

end NumberKind

/-- A cursor at the start. -/
def start (data : Bytes) : Cursor := ⟨data, 0, Nat.zero_le _⟩

/-- The bytes from the position on. -/
def rest (c : Cursor) : Bytes := c.data.drop c.position

/-- The number of bytes from the position on. -/
def remaining (c : Cursor) : Nat := c.data.length - c.position

/-- Whether the end is not reached. -/
def hasMore (c : Cursor) : Bool := decide (c.position < c.data.length)

/-- Moves to a position, which may be the end. -/
def seek (c : Cursor) (position : Nat) : Except Error Unit × Cursor :=
  if h : position ≤ c.data.length then (.ok (), ⟨c.data, position, h⟩)
  else (.error .outOfBounds, c)

/-- Moves ahead. -/
def advance (c : Cursor) (step : Nat) : Except Error Unit × Cursor :=
  c.seek (c.position + step)

/-- Reads a number. -/
def number (c : Cursor) (kind : NumberKind) : Except Error Int × Cursor :=
  if h : c.position + kind.width ≤ c.data.length then
    (.ok (kind.interpret (Bytes.toNatLE (c.rest.take kind.width))), ⟨c.data, _, h⟩)
  else (.error .outOfBounds, c)

/-- Reads raw bytes. -/
def bytes (c : Cursor) (n : Nat) : Except Error Bytes × Cursor :=
  if h : c.position + n ≤ c.data.length then
    (.ok (c.rest.take n), ⟨c.data, _, h⟩)
  else (.error .outOfBounds, c)

/-- The cursor after `n` consumed bytes, the end at the latest. -/
def consume (c : Cursor) (n : Nat) : Cursor :=
  ⟨c.data, min (c.position + n) c.data.length, Nat.min_le_right _ _⟩

/-- Reads a seven-bit integer. -/
def sevenBit (c : Cursor) : Except Error Nat × Cursor :=
  match SevenBit.decode c.rest with
  | .value v consumed _ => (.ok v, c.consume consumed)
  | .truncated consumed => (.error .outOfBounds, c.consume consumed)
  | .overflow consumed =>
    (.error (.format (.sevenBitOverflow (c.position + consumed - 1))), c.consume consumed)

/-- Reads a number at an offset of a byte string; the offset afterwards is behind the
number, or unchanged if there is none. -/
def numberAt (data : Bytes) (kind : NumberKind) (offset : Nat) : Except Error Int × Nat :=
  if offset + kind.width ≤ data.length then
    (.ok (kind.interpret (Bytes.toNatLE ((data.drop offset).take kind.width))), offset + kind.width)
  else (.error .outOfBounds, offset)

end Cursor

end OpcodeRecovery
