import OpcodeRecovery.Ledger

/-!
Operand shapes, and the two places where knowledge about them is kept.

* `OperandShape` is the layout of the bytes behind an opcode.
* `ShapeTable` declares the shapes of opcodes that are known beforehand.
* `ShapeVotes` counts the shapes that were inferred for the others. The shape most often
  inferred for an opcode (`ShapeVotes.dominant`) can be promoted to a declaration
  (`ShapeVotes.promote`).
-/

namespace OpcodeRecovery

/-- The layout of the operand behind an opcode. -/
inductive OperandShape where
  /-- No operand. -/
  | none
  /-- One byte. -/
  | byte
  /-- A 32-bit number. -/
  | int32
  /-- A 64-bit number. -/
  | int64
  /-- A metadata token. -/
  | token
  /-- A branch target, relative to the end of the instruction. -/
  | branch
  /-- A count and as many branch targets. -/
  | switch
  deriving DecidableEq, Repr

namespace OperandShape

/-- The shapes in their order. -/
def all : List OperandShape := [none, byte, int32, int64, token, branch, switch]

/-- The place of a shape in the order. -/
def index : OperandShape → Nat
  | none => 0
  | byte => 1
  | int32 => 2
  | int64 => 3
  | token => 4
  | branch => 5
  | switch => 6

theorem index_lt (s : OperandShape) : s.index < 7 := by cases s <;> decide

instance : Ranked OperandShape where
  rank := index
  rank_injective a b h := by cases a <;> cases b <;> first | rfl | exact absurd h (by decide)

/-- The name of a shape. -/
def name : OperandShape → String
  | none => "None"
  | byte => "Byte"
  | int32 => "Int32"
  | int64 => "Int64"
  | token => "Token"
  | branch => "Branch"
  | switch => "Switch"

/-- The shape of a name. -/
def ofName? (s : String) : Option OperandShape := all.find? (·.name == s)

/-- The bytes of an operand; those of a switch depend on its count. -/
def fixedSize? : OperandShape → Option Nat
  | none => some 0
  | byte => some 1
  | int32 | token | branch => some 4
  | int64 => some 8
  | switch => Option.none

/-- Whether operands of this shape hold branch targets. -/
def isBranch : OperandShape → Bool
  | branch | switch => true
  | _ => false

end OperandShape

/-! ### Declared shapes -/

/-- The shapes that are known beforehand, with the version of this knowledge. -/
structure ShapeTable where
  version : UInt32
  shapes : Ledger UInt8 OperandShape
  deriving DecidableEq

namespace ShapeTable

/-- A table that declares nothing. -/
def ofVersion (version : UInt32) : ShapeTable := ⟨version, .empty⟩

/-- The table to start from. -/
def default : ShapeTable := ofVersion 1

/-- Declares the shape of an opcode; a later declaration replaces an earlier one. -/
def declare (t : ShapeTable) (opcode : UInt8) (shape : OperandShape) : ShapeTable :=
  { t with shapes := t.shapes.insert opcode shape }

/-- The declared shape of an opcode. -/
def get? (t : ShapeTable) (opcode : UInt8) : Option OperandShape := t.shapes.get? opcode

/-- The declared opcodes, ascending. -/
def opcodes (t : ShapeTable) : List UInt8 := t.shapes.keys

end ShapeTable

/-! ### Inferred shapes -/

instance : Ranked (UInt8 × OperandShape) where
  rank p := p.1.toNat * 7 + p.2.index
  rank_injective a b h := by
    obtain ⟨oa, sa⟩ := a
    obtain ⟨ob, sb⟩ := b
    have ha := sa.index_lt
    have hb := sb.index_lt
    simp only at h
    have ho : oa = ob := UInt8.toNat_inj.1 (by omega)
    have hs : sa = sb := Ranked.rank_injective sa sb (show sa.index = sb.index by omega)
    rw [ho, hs]

/-- How often each shape was inferred for each opcode. -/
structure ShapeVotes where
  counts : Ledger (UInt8 × OperandShape) Nat
  deriving DecidableEq

namespace ShapeVotes

/-- No votes. -/
def empty : ShapeVotes := ⟨.empty⟩

/-- Counts one more occurrence of an opcode with an inferred shape. -/
def record (v : ShapeVotes) (opcode : UInt8) (shape : OperandShape) : ShapeVotes :=
  ⟨v.counts.add (opcode, shape) 1⟩

/-- All votes, by opcode and then by shape. -/
def toList (v : ShapeVotes) : List ((UInt8 × OperandShape) × Nat) := v.counts.entries

/-- Whether nothing was inferred. -/
def isEmpty (v : ShapeVotes) : Bool := v.counts.isEmpty

/-- The votes of one opcode, by shape. -/
def ofOpcode (v : ShapeVotes) (opcode : UInt8) : List (OperandShape × Nat) :=
  v.counts.entries.filterMap fun e =>
    if e.1.1 = opcode then some (e.1.2, e.2) else none

/-- The shape most often inferred for an opcode, the lowest one among several. -/
def dominant (v : ShapeVotes) (opcode : UInt8) : Option OperandShape :=
  Ledger.dominantEntry (v.ofOpcode opcode)

/-- All opcodes, ascending. -/
def allOpcodes : List UInt8 := (List.range 256).map UInt8.ofNat

/-- Declares the dominant shape of every opcode that was voted on and is not declared. -/
def promote (v : ShapeVotes) (table : ShapeTable) : ShapeTable :=
  allOpcodes.foldl
    (fun t opcode =>
      match t.get? opcode, v.dominant opcode with
      | none, some shape => t.declare opcode shape
      | _, _ => t)
    table

/-- The votes as text. -/
def inspect (v : ShapeVotes) : String :=
  "[" ++ ", ".intercalate (v.toList.map fun e =>
    "ShapeVote \x7b opcode: " ++ toString e.1.1.toNat ++ ", shape: " ++ e.1.2.name
      ++ ", count: " ++ toString e.2 ++ " \x7d") ++ "]"

end ShapeVotes

end OpcodeRecovery
