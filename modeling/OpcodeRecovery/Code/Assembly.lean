import OpcodeRecovery.Bytes.SevenBit
import OpcodeRecovery.Code.Method

/-!
Assembling method streams: the way back from instructions to bytes.

`Assembly.emit` appends an opcode with an operand; branch targets are given as offsets from
the start of the code and written relative to the end of the instruction. `Assembly.build`
puts the flags byte and the exception regions in front of the code.
-/

namespace OpcodeRecovery

/-- A method stream under construction. -/
structure Assembly where
  regions : List Region
  code : Bytes

namespace Assembly

/-- Nothing assembled yet. -/
def empty : Assembly := ⟨[], []⟩

/-- The offset of the next instruction. -/
def position (a : Assembly) : Nat := a.code.length

/-- A branch target relative to the end of its instruction. Places are 64-bit addresses and
distances 32-bit numbers; a distance that does not fit is written as the largest one. -/
def relative (finish target : Nat) : Int :=
  let distance := Int.bmod target 0x10000000000000000 - finish
  if -0x80000000 ≤ distance ∧ distance ≤ 0x7FFFFFFF then distance else 0x7FFFFFFF

/-- A signed number in `n` bytes. -/
def signedBytes (n : Nat) (v : Int) : Bytes := Bytes.ofNatLE n (v % Bytes.capacity n).toNat

/-- The bytes of an operand whose opcode stands at `offset`. -/
def operandBytes (offset : Nat) : Operand → Bytes
  | .none => []
  | .byte v => [v]
  | .int32 v => signedBytes 4 v.toInt
  | .int64 v => signedBytes 8 v.toInt
  | .token t => Bytes.ofNatLE 4 t.value.toNat
  | .branch target => signedBytes 4 (relative (offset + 5) target)
  | .switch targets =>
    let finish := offset + 5 + 4 * targets.length
    Bytes.ofNatLE 4 (min targets.length 0xFFFFFFFF)
      ++ targets.flatMap fun t => signedBytes 4 (relative finish t)

/-- Appends raw bytes to the code. -/
def raw (a : Assembly) (bytes : Bytes) : Assembly := { a with code := a.code ++ bytes }

/-- Appends an instruction. -/
def emit (a : Assembly) (opcode : UInt8) (operand : Operand) : Assembly :=
  a.raw (opcode :: operandBytes a.position operand)

/-- Adds an exception region. -/
def region (a : Assembly) (r : Region) : Assembly := { a with regions := a.regions ++ [r] }

/-- The bytes of an exception region: its kind and four 32-bit numbers. -/
def regionBytes (r : Region) : Bytes :=
  UInt8.ofNat r.kind.number
    :: [r.tryStart, r.tryLength, r.handlerStart, r.handlerLength].flatMap (Bytes.ofNatLE 4)

/-- The method stream: a flags byte that says whether there are exception regions, the
regions if so, and the code. -/
def build (a : Assembly) : Bytes :=
  if a.regions.isEmpty then 0 :: a.code
  else
    1 :: SevenBit.encode (min a.regions.length 0xFFFFFFFF)
      ++ a.regions.flatMap regionBytes ++ a.code

end Assembly

end OpcodeRecovery
