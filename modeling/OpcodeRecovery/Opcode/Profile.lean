import OpcodeRecovery.Code.Method

/-!
Profiles: what is counted about each opcode over all methods.

Every counter is a sum over the instructions of all methods, so that profiles of different
methods can be added in any order. `Profile.countInstruction` raises the counters of an opcode by
one occurrence, and `ProfileSet.accumulate` does so for every instruction of a method;
`Profile.add` adds two profiles, counter by counter, and `ProfileSet.merge` two sets.
-/

namespace OpcodeRecovery

/-- The counts of one opcode. -/
structure Profile where
  opcode : UInt8
  /-- How many instructions have the opcode. -/
  occurrences : Nat := 0
  /-- How many methods have such an instruction. -/
  methods : Nat := 0
  /-- How many have each operand shape. -/
  shapes : Ledger OperandShape Nat := .empty
  /-- How many are the first of their method. -/
  methodEntry : Nat := 0
  /-- How many are the last of their method. -/
  methodExit : Nat := 0
  /-- How many are followed by a leader. -/
  nextLeader : Nat := 0
  /-- How many are leaders, without the first of a method. -/
  branchTarget : Nat := 0
  /-- How many stand in protected code. -/
  inTry : Nat := 0
  /-- How many stand in a handler. -/
  inHandler : Nat := 0
  /-- How many may lead out of protected code or a handler. -/
  exitsRegion : Nat := 0
  /-- How many stand where the stack is empty. -/
  emptyStack : Nat := 0
  /-- How many are followed by each opcode. -/
  successors : Ledger UInt8 Nat := .empty
  /-- How many follow each opcode. -/
  predecessors : Ledger UInt8 Nat := .empty
  deriving DecidableEq

/-- A share of a total, at most one; zero if the total is. -/
def ratio (part total : Nat) : Float :=
  if total = 0 then 0.0
  else
    let q := part.toUInt64.toFloat / total.toUInt64.toFloat
    if q < 1.0 then q else 1.0

namespace Profile

/-- The profile of an opcode that was not met. -/
def ofOpcode (opcode : UInt8) : Profile := { opcode }

/-- Adds the counts of another profile. -/
def add (p q : Profile) : Profile :=
  { opcode := p.opcode
    occurrences := p.occurrences + q.occurrences
    methods := p.methods + q.methods
    shapes := p.shapes.mergeWith (· + ·) q.shapes
    methodEntry := p.methodEntry + q.methodEntry
    methodExit := p.methodExit + q.methodExit
    nextLeader := p.nextLeader + q.nextLeader
    branchTarget := p.branchTarget + q.branchTarget
    inTry := p.inTry + q.inTry
    inHandler := p.inHandler + q.inHandler
    exitsRegion := p.exitsRegion + q.exitsRegion
    emptyStack := p.emptyStack + q.emptyStack
    successors := p.successors.mergeWith (· + ·) q.successors
    predecessors := p.predecessors.mergeWith (· + ·) q.predecessors }

/-- The operand shape most often met, the lowest one among several. -/
def dominantShape (p : Profile) : Option OperandShape := p.shapes.dominant

/-- The share of occurrences behind which control surely does not fall through: the last
of a method and those in front of a leader. -/
def noFallthrough (p : Profile) : Float := ratio (p.methodExit + p.nextLeader) p.occurrences

/-- A count, raised by one if a condition holds. -/
def raise (n : Nat) (b : Bool) : Nat := if b then n + 1 else n

/-- Counts the opcode of a neighbour, if there is one. -/
def countNeighbour (counts : Ledger UInt8 Nat) : Option Instruction → Ledger UInt8 Nat
  | some n => counts.add n.opcode 1
  | none => counts

/-- Counts an instruction of the opcode: its neighbours are given, and whether its opcode stands in
the method for the first time. -/
def countInstruction (p : Profile) (m : Method) (previous : Option Instruction) (i : Instruction)
    (following : Option Instruction) (first : Bool) : Profile :=
  { p with
    occurrences := p.occurrences + 1
    methods := raise p.methods first
    shapes := p.shapes.add i.shape 1
    methodEntry := raise p.methodEntry previous.isNone
    methodExit := raise p.methodExit following.isNone
    nextLeader := raise p.nextLeader (following.any fun n => m.isLeader n.offset)
    branchTarget := raise p.branchTarget (m.isLeader i.offset && previous.isSome)
    inTry := raise p.inTry (m.inTry i.offset)
    inHandler := raise p.inHandler (m.inHandler i.offset)
    exitsRegion := raise p.exitsRegion (i.targets.any (m.leavesRegion i.offset))
    emptyStack := raise p.emptyStack (m.isEmptyStackPoint i.offset)
    successors := countNeighbour p.successors following
    predecessors := countNeighbour p.predecessors previous }

end Profile

/-- The profiles of all opcodes met in a number of methods. -/
structure ProfileSet where
  profiles : Ledger UInt8 Profile
  /-- How many methods were counted. -/
  methods : Nat
  /-- How many instructions were counted. -/
  instructions : Nat
  deriving DecidableEq

namespace ProfileSet

/-- No methods counted. -/
def empty : ProfileSet := ⟨.empty, 0, 0⟩

/-- Adds a profile to the one of its opcode. -/
def addProfile (profiles : Ledger UInt8 Profile) (p : Profile) : Ledger UInt8 Profile :=
  profiles.upsert p.opcode fun
    | some old => old.add p
    | none => p

/-- Counts the instructions of a method, of which `previous` was the last one counted and
`seen` are the opcodes met so far. -/
def addInstructions (m : Method) :
    Option Instruction → List UInt8 → List Instruction → Ledger UInt8 Profile →
      Ledger UInt8 Profile
  | _, _, [], profiles => profiles
  | previous, seen, i :: rest, profiles =>
    let first := !seen.contains i.opcode
    addInstructions m (some i) (if first then i.opcode :: seen else seen) rest
      (profiles.upsert i.opcode fun old =>
        (old.getD (.ofOpcode i.opcode)).countInstruction m previous i rest.head? first)

/-- Counts a method. -/
def accumulate (s : ProfileSet) (m : Method) : ProfileSet :=
  { profiles := addInstructions m none [] m.instructions.toList s.profiles
    methods := s.methods + 1
    instructions := s.instructions + m.instructions.size }

/-- Counts methods one after the other. -/
def ofMethods (ms : List Method) : ProfileSet := ms.foldl accumulate empty

/-- Adds two sets of profiles. -/
def merge (s t : ProfileSet) : ProfileSet :=
  { profiles := s.profiles.mergeWith Profile.add t.profiles
    methods := s.methods + t.methods
    instructions := s.instructions + t.instructions }

/-- A set from profiles that were kept. How many methods they came from is not known, but no
fewer than the largest number one of them has. -/
def ofProfiles (ps : List Profile) : ProfileSet :=
  ps.foldl
    (fun s p =>
      { profiles := addProfile s.profiles p
        methods := max s.methods p.methods
        instructions := s.instructions + p.occurrences })
    empty

/-- The profile of an opcode. -/
def get? (s : ProfileSet) (opcode : UInt8) : Option Profile := s.profiles.get? opcode

/-- The opcodes met, ascending. -/
def opcodes (s : ProfileSet) : List UInt8 := s.profiles.keys

/-- Whether an opcode behaves like a conditional branch: most of its operands are branch
targets, and control falls through behind more than half of its occurrences. -/
def isConditionalLike (s : ProfileSet) (opcode : UInt8) : Bool :=
  match s.get? opcode with
  | some p => p.dominantShape == some .branch && decide (p.noFallthrough < 0.5)
  | none => false

end ProfileSet

end OpcodeRecovery
