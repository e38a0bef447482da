import OpcodeRecovery.Code.Shape
import OpcodeRecovery.Error

/-!
Instructions over an opcode numbering whose meaning is not known: what is recorded is where
an instruction stands, how long it is, its opcode, its operand, and whether the operand's
shape was declared or inferred.
-/

namespace OpcodeRecovery

/-- A decoded operand. Branch targets are offsets from the start of the code. -/
inductive Operand where
  | none
  | byte (value : UInt8)
  | int32 (value : Int32)
  | int64 (value : Int64)
  | token (value : Token)
  | branch (target : Nat)
  | switch (targets : List Nat)
  deriving DecidableEq, Repr

namespace Operand

/-- The shape of an operand. -/
def shape : Operand → OperandShape
  | none => .none
  | byte _ => .byte
  | int32 _ => .int32
  | int64 _ => .int64
  | token _ => .token
  | branch _ => .branch
  | switch _ => .switch

/-- The places an operand may lead to. -/
def targets : Operand → List Nat
  | branch target => [target]
  | switch targets => targets
  | _ => []

/-- An operand as text. -/
def text : Operand → String
  | none => ""
  | byte v => "0x" ++ Hex.upper 2 v.toNat
  | int32 v => toString v.toInt
  | int64 v => toString v.toInt ++ "L"
  | token t => t.text
  | branch target => offsetLabel target
  | switch targets => "(" ++ ", ".intercalate (targets.map offsetLabel) ++ ")"

end Operand

/-- Where the shape of an operand comes from. -/
inductive ShapeSource where
  | declared
  | inferred
  deriving DecidableEq, Repr

/-- The name of a source. -/
def ShapeSource.name : ShapeSource → String
  | declared => "Declared"
  | inferred => "Inferred"

/-- An instruction of a virtualized method. -/
structure Instruction where
  /-- Where it starts. -/
  offset : Nat
  /-- Its bytes, opcode included. -/
  size : Nat
  opcode : UInt8
  operand : Operand
  source : ShapeSource
  deriving DecidableEq, Repr

namespace Instruction

/-- The shape of the operand. -/
def shape (i : Instruction) : OperandShape := i.operand.shape

/-- The offset behind an instruction. -/
def finish (i : Instruction) : Nat := i.offset + i.size

/-- The places an instruction may lead to, apart from the next one. -/
def targets (i : Instruction) : List Nat := i.operand.targets

/-- An instruction as a line of a listing. -/
def text (i : Instruction) : String :=
  offsetLabel i.offset ++ ": " ++ opcodeLabel i.opcode
    ++ (if i.operand = .none then "" else " " ++ i.operand.text)
    ++ (if i.source = .inferred then " ; inferred" else "")

end Instruction

end OpcodeRecovery
