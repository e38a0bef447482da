import OpcodeRecovery.Code.Instruction

/-!
Inferring the width of an operand whose opcode is not declared.

A candidate width is judged by looking ahead: behind an operand of that width, how many
instructions of known size follow one another without leaving the code, up to four
(`Width.support`). Reaching the end of the code exactly counts as four. The first candidate
with the largest support wins, in the order none, four, one, eight bytes; if no candidate
has support, the operand is taken to be empty (`Width.infer`).

A width, once inferred, holds for the rest of the method (`Width.Memory`) and for no other
method.
-/

namespace OpcodeRecovery

/-- The widths an operand of an undeclared opcode may have. -/
inductive Width where
  | zero
  | one
  | four
  | eight
  deriving DecidableEq, Repr

namespace Width

/-- The bytes of an operand of this width. -/
def size : Width → Nat
  | zero => 0
  | one => 1
  | four => 4
  | eight => 8

/-- The candidates in the order in which they are tried. -/
def candidates : List Width := [zero, four, one, eight]

/-- How many instructions are looked at behind a candidate. -/
def lookahead : Nat := 4

/-- The widths inferred so far in a method. -/
abbrev Memory := List (UInt8 × Width)

/-- The bytes of the operand behind an opcode, where its shape is declared or was inferred
before. A switch announces its size itself, so its count has to be there. -/
def knownSize? (table : ShapeTable) (memory : Memory) (opcode : UInt8) (operand : Bytes) :
    Option Nat :=
  match table.get? opcode with
  | some .switch => (Bytes.number? 4 operand).map fun (count, _) => 4 + 4 * count
  | some shape => shape.fixedSize?
  | none => (memory.lookup opcode).map size

/-- How many of the next `n` instructions are known and fit; all `n` if the code ends
exactly behind one of them. -/
def support (table : ShapeTable) (memory : Memory) : Nat → Bytes → Nat
  | 0, _ => 0
  | n + 1, [] => n + 1
  | n + 1, opcode :: rest =>
    match knownSize? table memory opcode rest with
    | some size =>
      if size ≤ rest.length then 1 + support table memory n (rest.drop size) else 0
    | none => 0

/-- The best candidate so far with its support, after trying one more. -/
def better (table : ShapeTable) (memory : Memory) (operand : Bytes) (best : Nat × Width)
    (width : Width) : Nat × Width :=
  if width.size ≤ operand.length then
    let s := support table memory lookahead (operand.drop width.size)
    if s > best.1 then (s, width) else best
  else best

/-- The width of an operand whose opcode is neither declared nor met before, from the bytes
behind the opcode. -/
def infer (table : ShapeTable) (memory : Memory) (operand : Bytes) : Width :=
  (candidates.foldl (better table memory operand) (0, zero)).2

end Width

end OpcodeRecovery
