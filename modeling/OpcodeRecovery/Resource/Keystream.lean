import OpcodeRecovery.Bytes

/-!
The keystream that masks a method's bytes. A 32-bit state starts from the method's seed and
is stirred by three shifts before each byte; the byte is the second lowest of the state.

Zero is a fixed point of the stirring and the only state that leads to zero, so the start
avoids it: the one seed that would give zero starts from a constant instead.
-/

namespace OpcodeRecovery

namespace Keystream

/-- What seeds are combined with. -/
def salt : UInt32 := 0x9E3779B9

/-- The start of the one seed that the salt would turn into zero. -/
def zeroReplacement : UInt32 := 0x2545F491

/-- The state before the first byte. -/
def start (seed : UInt32) : UInt32 :=
  if seed ^^^ salt = 0 then zeroReplacement else seed ^^^ salt

/-- Stirs the state once. -/
def next (state : UInt32) : UInt32 :=
  let x := state ^^^ (state <<< 13)
  let y := x ^^^ (x >>> 17)
  y ^^^ (y <<< 5)

/-- The key byte that a state yields. -/
def keyByte (state : UInt32) : UInt8 := (state >>> 8).toUInt8

/-- The state after `n` bytes. -/
def stateAfter (seed : UInt32) : Nat → UInt32
  | 0 => start seed
  | n + 1 => next (stateAfter seed n)

/-- The next `n` key bytes of a state. -/
def bytesFrom : Nat → UInt32 → Bytes
  | 0, _ => []
  | n + 1, state => keyByte (next state) :: bytesFrom n (next state)

/-- The first `n` key bytes of a seed. -/
def bytes (seed : UInt32) (n : Nat) : Bytes := bytesFrom n (start seed)

end Keystream

end OpcodeRecovery
