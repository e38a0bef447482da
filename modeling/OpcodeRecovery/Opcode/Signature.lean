import OpcodeRecovery.Code.Shape

/-!
Signatures: what can be observed of a known instruction without knowing its opcode. A
signature gives the shape of the operand, what happens to control, what happens to the
stack, and where the instruction may stand with respect to exception regions.

`SignatureTable.cil` lists the signatures of the common intermediate language's
instructions.
-/

namespace OpcodeRecovery

/-- What an instruction does to control. -/
inductive Flow where
  | sequential
  | conditionalBranch
  | unconditionalBranch
  | call
  | return
  | switch
  | throw
  | endFinally
  | leave
  deriving DecidableEq, Repr

namespace Flow

/-- All kinds of flow. -/
def all : List Flow :=
  [.sequential, .conditionalBranch, .unconditionalBranch, .call, .return, .switch, .throw,
    .endFinally, .leave]

/-- The name of a kind of flow. -/
def name : Flow → String
  | .sequential => "Sequential"
  | .conditionalBranch => "ConditionalBranch"
  | .unconditionalBranch => "UnconditionalBranch"
  | .call => "Call"
  | .return => "Return"
  | .switch => "Switch"
  | .throw => "Throw"
  | .endFinally => "EndFinally"
  | .leave => "Leave"

/-- The kind of flow of a name. -/
def ofName? (s : String) : Option Flow := all.find? (·.name == s)

/-- Whether control may go on with the next instruction. -/
def fallsThrough : Flow → Bool
  | .sequential | .conditionalBranch | .call | .switch => true
  | _ => false

end Flow

/-- What an instruction takes off the stack and puts on it. -/
structure StackEffect where
  pops : UInt8
  pushes : UInt8
  deriving DecidableEq, Repr

/-- The change of the stack's height, as an eight-bit signed number. -/
def StackEffect.net (s : StackEffect) : Int8 := s.pushes.toInt8 - s.pops.toInt8

/-- Where an instruction has to stand. -/
inductive RegionRule where
  | none
  | exitsProtectedRegion
  | insideHandler
  deriving DecidableEq, Repr

namespace RegionRule

/-- All rules. -/
def all : List RegionRule := [none, exitsProtectedRegion, insideHandler]

/-- The name of a rule. -/
def name : RegionRule → String
  | none => "None"
  | exitsProtectedRegion => "ExitsProtectedRegion"
  | insideHandler => "InsideHandler"

/-- The rule of a name. -/
def ofName? (s : String) : Option RegionRule := all.find? (·.name == s)

end RegionRule

/-- What can be observed of a known instruction. -/
structure Signature where
  mnemonic : String
  shape : OperandShape
  flow : Flow
  /-- The effect on the stack, where it is fixed. -/
  stack : Option StackEffect
  region : RegionRule
  /-- Whether at most one opcode stands for the instruction. -/
  unique : Bool
  deriving DecidableEq, Repr

/-- A list of signatures with its version. -/
structure SignatureTable where
  version : UInt32
  signatures : List Signature
  deriving DecidableEq, Repr

namespace SignatureTable

/-- The first signature with a mnemonic. -/
def get? (t : SignatureTable) (mnemonic : String) : Option Signature :=
  t.signatures.find? (·.mnemonic == mnemonic)

/-! ### The common intermediate language -/

/-- An instruction that goes on with the next one. -/
def plain (mnemonic : String) (shape : OperandShape) (pops pushes : UInt8) : Signature :=
  ⟨mnemonic, shape, .sequential, some ⟨pops, pushes⟩, .none, true⟩

/-- A branch that may fall through. -/
def conditional (mnemonic : String) (pops : UInt8) : Signature :=
  ⟨mnemonic, .branch, .conditionalBranch, some ⟨pops, 0⟩, .none, true⟩

/-- A call, whose effect on the stack depends on what is called. -/
def call (mnemonic : String) : Signature :=
  ⟨mnemonic, .token, .call, none, .none, true⟩

/-- Doing nothing, for which there may be several opcodes. -/
def nop : Signature := { plain "nop" .none 0 0 with unique := false }

/-- Arguments, locals, constants and the stack itself. -/
def loads : List Signature :=
  [plain "ldarg" .byte 0 1, plain "ldarga" .byte 0 1, plain "starg" .byte 1 0,
    plain "ldloc" .byte 0 1, plain "ldloca" .byte 0 1, plain "stloc" .byte 1 0,
    plain "ldnull" .none 0 1, plain "ldc.i4" .int32 0 1, plain "ldc.i8" .int64 0 1,
    plain "dup" .none 1 2, plain "pop" .none 1 0]

/-- Calls, fields, types and strings. -/
def objects : List Signature :=
  [call "call", call "callvirt", call "newobj",
    plain "ldstr" .token 0 1, plain "ldfld" .token 1 1, plain "stfld" .token 2 0,
    plain "ldsfld" .token 0 1, plain "stsfld" .token 1 0, plain "castclass" .token 1 1,
    plain "isinst" .token 1 1, plain "newarr" .token 1 1, plain "box" .token 1 1,
    plain "unbox.any" .token 1 1, plain "ldtoken" .token 0 1, plain "ldftn" .token 0 1,
    plain "ldelema" .token 2 1, plain "initobj" .token 1 0, plain "sizeof" .token 0 1]

/-- Arithmetic, logic, conversion and comparison. -/
def arithmetic : List Signature :=
  [plain "add" .none 2 1, plain "sub" .none 2 1, plain "mul" .none 2 1,
    plain "div" .none 2 1, plain "rem" .none 2 1, plain "and" .none 2 1,
    plain "or" .none 2 1, plain "xor" .none 2 1, plain "shl" .none 2 1,
    plain "shr" .none 2 1, plain "neg" .none 1 1, plain "not" .none 1 1,
    plain "conv.i4" .none 1 1, plain "conv.i8" .none 1 1, plain "ceq" .none 2 1,
    plain "cgt" .none 2 1, plain "clt" .none 2 1]

/-- Arrays and references. -/
def arrays : List Signature :=
  [plain "ldlen" .none 1 1, plain "ldelem.ref" .none 2 1, plain "stelem.ref" .none 3 0,
    plain "ldind.i4" .none 1 1, plain "stind.i4" .none 2 0]

/-- Branches, returns, exceptions. -/
def control : List Signature :=
  [⟨"ret", .none, .return, none, .none, true⟩,
    ⟨"br", .branch, .unconditionalBranch, some ⟨0, 0⟩, .none, true⟩,
    conditional "brfalse" 1, conditional "brtrue" 1, conditional "beq" 2,
    conditional "bge" 2, conditional "bgt" 2, conditional "ble" 2, conditional "blt" 2,
    conditional "bne.un" 2,
    ⟨"switch", .switch, .switch, some ⟨1, 0⟩, .none, true⟩,
    ⟨"throw", .none, .throw, some ⟨1, 0⟩, .none, true⟩,
    ⟨"leave", .branch, .leave, some ⟨0, 0⟩, .exitsProtectedRegion, true⟩,
    ⟨"endfinally", .none, .endFinally, some ⟨0, 0⟩, .insideHandler, true⟩]

/-- The signatures of the common intermediate language. -/
def cil : SignatureTable :=
  ⟨1, nop :: loads ++ objects ++ arithmetic ++ arrays ++ control⟩

end SignatureTable

end OpcodeRecovery
