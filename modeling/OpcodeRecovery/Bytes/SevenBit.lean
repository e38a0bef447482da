import OpcodeRecovery.Bytes

/-!
Seven-bit integers: a 32-bit number in one to five bytes, seven bits a byte, low bits
first, the top bit of a byte saying that another follows.

* `SevenBit.encode` writes a number in as few bytes as it takes.
* `SevenBit.decode` reads one from the front of a byte string. It stops in one of three
  ways (`SevenBit.Reading`): with a value, at the end of the data, or at a fifth byte that
  would carry bits beyond the thirty-second. Every reading also says how many bytes were
  consumed, since a reader stands behind them afterwards.
-/

namespace OpcodeRecovery

namespace SevenBit

/-- The bytes of a number: low seven bits first, every byte but the last marked by its
top bit. -/
def encode (v : Nat) : Bytes :=
  if v < 128 then [UInt8.ofNat v]
  else UInt8.ofNat (v % 128 + 128) :: encode (v / 128)
termination_by v

/-- How reading a seven-bit integer ends. -/
inductive Reading where
  /-- A value, the number of bytes it took, and the bytes after it. -/
  | value (v : Nat) (consumed : Nat) (rest : Bytes)
  /-- The data ended after `consumed` marked bytes. -/
  | truncated (consumed : Nat)
  /-- The fifth byte reaches beyond 32 bits; it is counted among the consumed ones. -/
  | overflow (consumed : Nat)
  deriving DecidableEq, Repr

/-- The reading with seven more low bits in front of its value. -/
def Reading.shift (low : Nat) : Reading → Reading
  | .value v consumed rest => .value (low + 128 * v) consumed rest
  | r => r

/-- Reads on after `i` marked bytes. The fifth byte may only use its low four bits, so no
reading goes beyond it. -/
def decodeFrom (i : Nat) : Bytes → Reading
  | [] => .truncated i
  | b :: rest =>
    if i = 4 ∧ 16 ≤ b.toNat then .overflow (i + 1)
    else if b.toNat < 128 then .value b.toNat (i + 1) rest
    else (decodeFrom (i + 1) rest).shift (b.toNat - 128)

/-- Reads a seven-bit integer from the front of a byte string. -/
def decode (bs : Bytes) : Reading := decodeFrom 0 bs

/-- Reads a seven-bit integer, keeping only the value and the rest. -/
def decode? (bs : Bytes) : Option (Nat × Bytes) :=
  match decode bs with
  | .value v _ rest => some (v, rest)
  | _ => none

end SevenBit

end OpcodeRecovery
