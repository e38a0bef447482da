import OpcodeRecovery.Bytes.SevenBit
import OpcodeRecovery.Code.Method
import OpcodeRecovery.Code.Width
import OpcodeRecovery.Stream

/-!
Decoding method streams.

The code is read from front to back (`Decode.scan`): an opcode, then an operand whose shape
is declared by the table or whose width is inferred. When all instructions are known, their
starts are, too, and two things remain (`Decode.settle`):

* a declared branch has to lead to the start of an instruction;
* a four-byte operand of an undeclared opcode is classified. The opcode is a branch if at
  least one of its operands is not zero and all of those that are not lead to the start of
  an instruction (`Decode.Landings`). Any other operand is a token if it looks like one, and
  a number otherwise.

`decodeCode` does both; `decodeMethod` reads the flags byte and the exception regions in
front of the code.
-/

namespace OpcodeRecovery

namespace Decode

/-! ### Reading operands -/

/-- Where an operand stands: behind which opcode, at which offset of a code of which size. -/
structure Place where
  opcode : UInt8
  offset : Nat
  codeSize : Nat

/-- Cuts an operand of `n` bytes off, whose first byte stands `before` bytes behind the
opcode's offset. -/
def operandBytes (p : Place) (before n : Nat) (bs : Bytes) : Except Error (Bytes × Bytes) :=
  require (.operandOverrun p.opcode p.offset n (p.codeSize - (p.offset + before)))
    (Bytes.split? n bs)

/-- The 32-bit number that four bytes spell. -/
def int32 (bs : Bytes) : Int32 := Int32.ofNat (Bytes.toNatLE bs)

/-- The 64-bit number that eight bytes spell. -/
def int64 (bs : Bytes) : Int64 := Int64.ofNat (Bytes.toNatLE bs)

/-- The place that a relative target leads to from the end of its instruction. It has to lie
inside the code. -/
def target (p : Place) (finish : Nat) (relative : Int32) : Except Error Nat :=
  let t := (finish : Int) + relative.toInt
  if 0 ≤ t ∧ t < p.codeSize then .ok t.toNat
  else reject (.targetOutside t p.opcode p.offset p.codeSize)

/-- The targets of a switch, four bytes each. -/
def targets (p : Place) (finish : Nat) : Nat → Bytes → Except Error (List Nat)
  | 0, _ => .ok []
  | n + 1, bs => do
    let t ← target p finish (int32 (bs.take 4))
    let ts ← targets p finish n (bs.drop 4)
    return t :: ts

/-- Reads an operand of a declared shape; the second part is its size. -/
def declaredOperand (p : Place) (bs : Bytes) : OperandShape → Except Error (Operand × Nat)
  | .none => .ok (.none, 0)
  | .byte => do
    let (v, _) ← operandBytes p 1 1 bs
    return (.byte (UInt8.ofNat v.toNatLE), 1)
  | .int32 => do
    let (v, _) ← operandBytes p 1 4 bs
    return (.int32 (int32 v), 4)
  | .int64 => do
    let (v, _) ← operandBytes p 1 8 bs
    return (.int64 (int64 v), 8)
  | .token => do
    let (v, _) ← operandBytes p 1 4 bs
    return (.token ⟨UInt32.ofNat v.toNatLE⟩, 4)
  | .branch => do
    let (v, _) ← operandBytes p 1 4 bs
    let t ← target p (p.offset + 5) (int32 v)
    return (.branch t, 4)
  | .switch => do
    let (count, bs) ← operandBytes p 1 4 bs
    let n := count.toNatLE
    let (table, _) ← operandBytes p 5 (4 * n) bs
    let ts ← targets p (p.offset + 5 + 4 * n) n table
    return (.switch ts, 4 + 4 * n)

/-- Reads an operand of an inferred width. -/
def inferredOperand (p : Place) (bs : Bytes) (width : Width) : Except Error Operand := do
  let (v, _) ← operandBytes p 1 width.size bs
  match width with
  | .zero => return .none
  | .one => return .byte (UInt8.ofNat v.toNatLE)
  | .four => return .int32 (int32 v)
  | .eight => return .int64 (int64 v)

/-! ### The linear pass -/

/-- Reads the instruction at `offset`, given the bytes behind its opcode. Returns it with the
widths known from then on. -/
def instruction (table : ShapeTable) (memory : Width.Memory) (p : Place) (bs : Bytes) :
    Except Error (Instruction × Width.Memory) := do
  match table.get? p.opcode with
  | some shape =>
    let (operand, size) ← declaredOperand p bs shape
    return (⟨p.offset, 1 + size, p.opcode, operand, .declared⟩, memory)
  | none =>
    let (width, memory) :=
      match memory.lookup p.opcode with
      | some width => (width, memory)
      | none =>
        let width := Width.infer table memory bs
        (width, (p.opcode, width) :: memory)
    let operand ← inferredOperand p bs width
    return (⟨p.offset, 1 + width.size, p.opcode, operand, .inferred⟩, memory)

/-- Reads instructions from `offset` to the end of the code. -/
def scan (table : ShapeTable) (codeSize : Nat) (memory : Width.Memory) (offset : Nat) :
    Bytes → Except Error (List Instruction)
  | [] => .ok []
  | opcode :: rest => do
    let (i, memory) ← instruction table memory ⟨opcode, offset, codeSize⟩ rest
    let is ← scan table codeSize memory i.finish (rest.drop (i.size - 1))
    return i :: is
termination_by bs => bs.length
decreasing_by simp only [List.length_drop, List.length_cons]; omega

/-! ### The second look -/

/-- The start of an instruction that a relative number leads to from `finish`. -/
def boundaryTarget? (starts : OffsetSet) (finish : Nat) (value : Int32) : Option Nat :=
  let t := (finish : Int) + value.toInt
  if 0 ≤ t ∧ starts.contains t.toNat then some t.toNat else none

/-- How the operands of an opcode that are not zero fare as relative targets. -/
structure Landings where
  /-- How many lead to the start of an instruction. -/
  landed : Nat
  /-- How many do not. -/
  missed : Nat
  deriving DecidableEq, Repr

/-- Whether all operands that are not zero land, and there is one. -/
def Landings.isBranch (l : Landings) : Bool := l.landed > 0 && l.missed == 0

/-- The four-byte operand of an instruction whose shape was inferred. -/
def openOperand? (i : Instruction) : Option Int32 :=
  match i.source, i.operand with
  | .inferred, .int32 v => some v
  | _, _ => none

/-- Counts one more instruction. -/
def tally (starts : OffsetSet) (l : Ledger UInt8 Landings) (i : Instruction) :
    Ledger UInt8 Landings :=
  match openOperand? i with
  | some v =>
    if v = 0 then l
    else
      let landed := (boundaryTarget? starts i.finish v).isSome
      l.upsert i.opcode fun old =>
        let o := old.getD ⟨0, 0⟩
        if landed then { o with landed := o.landed + 1 } else { o with missed := o.missed + 1 }
  | none => l

/-- How each undeclared opcode with four-byte operands fares. -/
def landings (starts : OffsetSet) (is : List Instruction) : Ledger UInt8 Landings :=
  is.foldl (tally starts) .empty

/-- What a four-byte operand of an undeclared opcode is. -/
def classify (starts : OffsetSet) (finish : Nat) (isBranch : Bool) (value : Int32) : Operand :=
  let plain : Operand :=
    if (Token.mk value.toUInt32).isPlausibleReference then .token ⟨value.toUInt32⟩
    else .int32 value
  if isBranch then
    match boundaryTarget? starts finish value with
    | some t => .branch t
    | none => plain
  else plain

/-- Classifies an open operand, and checks that a declared branch leads to the start of an
instruction. -/
def settleOne (starts : OffsetSet) (verdicts : Ledger UInt8 Landings) (i : Instruction) :
    Except Error Instruction :=
  match openOperand? i with
  | some v =>
    let isBranch := ((verdicts.get? i.opcode).map (·.isBranch)).getD false
    .ok { i with operand := classify starts i.finish isBranch v }
  | none =>
    if i.source = .inferred then .ok i
    else
      match i.targets.find? (!starts.contains ·) with
      | some t => reject (.targetInside i.opcode i.offset t)
      | none => .ok i

/-- Takes the second look at all instructions of a code. -/
def settle (codeSize : Nat) (is : List Instruction) : Except Error (List Instruction) :=
  let starts := OffsetSet.ofList codeSize (is.map (·.offset))
  is.mapM (settleOne starts (landings starts is))

end Decode

/-- Decodes code. -/
def decodeCode (table : ShapeTable) (code : Bytes) : Except Error (List Instruction) := do
  let is ← Decode.scan table code.length [] 0 code
  Decode.settle code.length is

/-! ### Method streams -/

namespace Decode

/-- The bytes of an exception region. -/
def regionSize : Nat := 17

/-- The numbers of an exception region before they are checked. -/
structure RegionRecord where
  kind : Nat
  tryStart : Nat
  tryLength : Nat
  handlerStart : Nat
  handlerLength : Nat

/-- Reads one region, for which there have to be seventeen bytes. -/
def regionRecord (bs : Bytes) : RegionRecord :=
  let field (i : Nat) : Nat := Bytes.toNatLE ((bs.drop (1 + 4 * i)).take 4)
  ⟨Bytes.toNatLE (bs.take 1), field 0, field 1, field 2, field 3⟩

/-- Reads `n` regions. -/
def regionRecords : Nat → Bytes → List RegionRecord
  | 0, _ => []
  | n + 1, bs => regionRecord bs :: regionRecords n (bs.drop regionSize)

/-- Checks the kind of a region and that it lies inside the code. -/
def checkRegion (codeSize : Nat) (r : RegionRecord) : Except Error Region :=
  match RegionKind.ofNumber? r.kind with
  | none => reject (.unknownRegionKind r.kind)
  | some kind =>
    if r.tryStart + r.tryLength ≤ codeSize ∧ r.handlerStart + r.handlerLength ≤ codeSize then
      .ok ⟨kind, r.tryStart, r.tryLength, r.handlerStart, r.handlerLength⟩
    else
      reject (.regionOutside codeSize r.tryStart r.tryLength r.handlerStart r.handlerLength)

/-- Splits a method stream into its regions, not yet checked, and its code. -/
def splitStream (data : Bytes) : Except Error (List RegionRecord × Bytes) :=
  match data with
  | [] => reject .emptyStream
  | flags :: rest =>
    if flags.toNat > 1 then reject (.unknownMethodFlags flags.toNat)
    else if flags.toNat = 0 then .ok ([], rest)
    else
      match SevenBit.decode rest with
      | .truncated _ => .error .outOfBounds
      | .overflow consumed => reject (.sevenBitOverflow consumed)
      | .value count _ rest =>
        if regionSize * count ≤ rest.length then
          .ok (regionRecords count rest, rest.drop (regionSize * count))
        else reject (.longRegionTable count data.length)

end Decode

/-- Decodes a method stream. -/
def decodeMethod (table : ShapeTable) (stream : Stream) : Except Error Method := do
  let (records, code) ← Decode.splitStream stream.data
  let regions ← records.mapM (Decode.checkRegion code.length)
  let instructions ← decodeCode table code
  return Method.ofParts stream.key code.length instructions regions

end OpcodeRecovery
