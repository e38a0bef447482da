import OpcodeRecovery.Bisect
import OpcodeRecovery.Code.Instruction
import OpcodeRecovery.Code.OffsetSet

/-!
Disassembled methods: instructions, exception regions and the offsets where a straight run
of code may begin.

* `Region` is a protected stretch of code with its handler.
* `Method.ofParts` collects the leaders: the first instruction, every branch target, and
  the starts of every region and of its handler.
* `Method.indexOf?` finds the instruction that starts at an offset, by halving the list;
  this is right because instructions stand in ascending order.
-/

namespace OpcodeRecovery

/-! ### Exception regions -/

/-- What the handler of a region does. -/
inductive RegionKind where
  | catch
  | filter
  | finally
  | fault
  deriving DecidableEq, Repr

namespace RegionKind

/-- The kinds in the order of their numbers. -/
def all : List RegionKind := [.catch, .filter, .finally, .fault]

/-- The number that stands for a kind. -/
def number : RegionKind → Nat
  | .catch => 0
  | .filter => 1
  | .finally => 2
  | .fault => 3

/-- The kind a number stands for. -/
def ofNumber? (n : Nat) : Option RegionKind := all.find? (·.number == n)

/-- The name of a kind. -/
def name : RegionKind → String
  | .catch => "Catch"
  | .filter => "Filter"
  | .finally => "Finally"
  | .fault => "Fault"

/-- The kind of a name. -/
def ofName? (s : String) : Option RegionKind := all.find? (·.name == s)

end RegionKind

/-- A protected stretch of code and its handler. -/
structure Region where
  kind : RegionKind
  tryStart : Nat
  tryLength : Nat
  handlerStart : Nat
  handlerLength : Nat
  deriving DecidableEq, Repr

namespace Region

/-- Where the protected code ends. -/
def tryEnd (r : Region) : Nat := r.tryStart + r.tryLength

/-- Where the handler ends. -/
def handlerEnd (r : Region) : Nat := r.handlerStart + r.handlerLength

/-- Whether an offset lies in the protected code. -/
def inTry (r : Region) (offset : Nat) : Bool :=
  decide (r.tryStart ≤ offset ∧ offset < r.tryEnd)

/-- Whether an offset lies in the handler. -/
def inHandler (r : Region) (offset : Nat) : Bool :=
  decide (r.handlerStart ≤ offset ∧ offset < r.handlerEnd)

/-- Whether the handler is entered with nothing on the stack. -/
def handlerStartsEmpty (r : Region) : Bool :=
  match r.kind with
  | .finally | .fault => true
  | .catch | .filter => false

/-- A region as a line of a listing. -/
def text (r : Region) : String :=
  ".try " ++ offsetLabel r.tryStart ++ " to " ++ offsetLabel r.tryEnd ++ " " ++ r.kind.name
    ++ " handler " ++ offsetLabel r.handlerStart ++ " to " ++ offsetLabel r.handlerEnd

end Region

/-! ### Methods -/

/-- A disassembled method. -/
structure Method where
  key : MethodKey
  codeSize : Nat
  instructions : Array Instruction
  regions : List Region
  /-- The offsets where a straight run of code may begin. -/
  leaderSet : OffsetSet
  deriving DecidableEq

namespace Method

/-- A method from its parts. -/
def ofParts (key : MethodKey) (codeSize : Nat) (instructions : List Instruction)
    (regions : List Region) : Method :=
  let entries := (instructions.head?.map (·.offset)).toList
  let targets := instructions.flatMap (·.targets)
  let regionStarts := regions.flatMap fun r => [r.tryStart, r.handlerStart]
  { key, codeSize, regions
    instructions := instructions.toArray
    leaderSet := OffsetSet.ofList codeSize (entries ++ targets ++ regionStarts) }

/-- The place in the list of the instruction that starts at an offset. -/
def indexOf? (m : Method) (offset : Nat) : Option Nat :=
  bisect (·.offset) m.instructions offset

/-- The instruction that starts at an offset. -/
def instructionAt? (m : Method) (offset : Nat) : Option Instruction :=
  (m.indexOf? offset).bind fun i => m.instructions[i]?

/-- Whether a straight run of code may begin at an offset. -/
def isLeader (m : Method) (offset : Nat) : Bool := m.leaderSet.contains offset

/-- The offsets where a straight run of code may begin, ascending. -/
def leaders (m : Method) : List Nat := m.leaderSet.toList

/-- Whether an offset lies in protected code. -/
def inTry (m : Method) (offset : Nat) : Bool := m.regions.any (·.inTry offset)

/-- Whether an offset lies in a handler. -/
def inHandler (m : Method) (offset : Nat) : Bool := m.regions.any (·.inHandler offset)

/-- Whether there is surely nothing on the stack at an offset: at the start of the method,
of protected code, and of a handler that starts with an empty stack. -/
def isEmptyStackPoint (m : Method) (offset : Nat) : Bool :=
  offset == 0 || m.regions.any fun r =>
    r.tryStart == offset || (r.handlerStart == offset && r.handlerStartsEmpty)

/-- Whether going from one offset to another leaves protected code or a handler. -/
def leavesRegion (m : Method) (offset target : Nat) : Bool :=
  m.regions.any fun r =>
    (r.inTry offset && !r.inTry target) || (r.inHandler offset && !r.inHandler target)

/-- The listing of a method. -/
def text (m : Method) : String :=
  "method " ++ m.key.text ++ s!" ({m.codeSize} bytes)\n"
    ++ String.join (m.regions.map fun r => "  " ++ r.text ++ "\n")
    ++ String.join (m.instructions.toList.map fun i => "  " ++ i.text ++ "\n")

end Method

end OpcodeRecovery
