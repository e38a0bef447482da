import OpcodeRecovery.Opcode.Profile
import OpcodeRecovery.Opcode.Signature

/-!
Scores: how well the profile of an opcode fits a signature, between zero and one.

* `Features` are the shares that a score is made from.
* `Scorer` is any way of scoring; nothing is assumed about its values.
* `structuralScorer` weighs four terms: the share of occurrences with the signature's operand
  shape, how far control falls through as the signature says, what the signature says about
  exception regions, and what it says about the stack. Terms that say nothing about a
  signature are left out of the mean.
-/

namespace OpcodeRecovery

/-- How much each term of the structural score counts. -/
structure Weights where
  shape : Float
  flow : Float
  region : Float
  stack : Float

/-- The usual weights. -/
def Weights.default : Weights := ⟨0.40, 0.30, 0.15, 0.15⟩

/-- The shares that describe an opcode. -/
structure Features where
  opcode : UInt8
  occurrences : Nat
  /-- The share of each operand shape. -/
  shapes : Ledger OperandShape Float
  noFallthrough : Float
  exitsRegion : Float
  inHandler : Float
  emptyStack : Float
  /-- The share of next instructions that behave like conditional branches. -/
  conditionalSuccessors : Float

namespace Features

/-- The features of a profile in its set. -/
def ofProfile (s : ProfileSet) (p : Profile) : Features :=
  let conditional := p.successors.entries.filter fun e => s.isConditionalLike e.1
  { opcode := p.opcode
    occurrences := p.occurrences
    shapes := p.shapes.map fun _ n => ratio n p.occurrences
    noFallthrough := p.noFallthrough
    exitsRegion := ratio p.exitsRegion p.occurrences
    inHandler := ratio p.inHandler p.occurrences
    emptyStack := ratio p.emptyStack p.occurrences
    conditionalSuccessors := ratio (Ledger.sum (conditional.map (·.2))) p.successors.total }

/-- The share of an operand shape. -/
def shapeRatio (f : Features) (shape : OperandShape) : Float :=
  (f.shapes.get? shape).getD 0.0

end Features

/-- A way of scoring. -/
abbrev Scorer := Features → Signature → Float

namespace Score

/-- The nearest value between zero and one; what is no number stays so. -/
def clampUnit (x : Float) : Float :=
  if x < 0.0 then 0.0 else if x > 1.0 then 1.0 else x

/-- The term of the operand shape. -/
def shapeTerm (f : Features) (s : Signature) : Float := f.shapeRatio s.shape

/-- The term of control flow. -/
def flowTerm (f : Features) (s : Signature) : Float :=
  if s.flow.fallsThrough then 1.0 - f.noFallthrough else f.noFallthrough

/-- The term of exception regions. Branches that are not said to leave a region should not
do so; nothing is expected of other instructions. -/
def regionTerm (f : Features) (s : Signature) : Option Float :=
  match s.region with
  | .exitsProtectedRegion => some f.exitsRegion
  | .insideHandler => some f.inHandler
  | .none => if s.shape.isBranch then some (1.0 - f.exitsRegion) else none

/-- The term of the stack: what pops should not stand where the stack is empty, and what
pushes nothing should not stand in front of a conditional branch. -/
def stackTerm (f : Features) (s : Signature) : Option Float :=
  match s.stack with
  | none => none
  | some effect =>
    let pops := 1.0 - f.emptyStack
    let pushes := 1.0 - f.conditionalSuccessors
    if effect.pops > 0 then
      if effect.pushes = 0 then some ((pops + pushes) / 2.0) else some pops
    else if effect.pushes = 0 then some pushes
    else none

/-- The terms that apply, with their weights. -/
def terms (w : Weights) (f : Features) (s : Signature) : List (Float × Float) :=
  [(w.shape, some (shapeTerm f s)), (w.flow, some (flowTerm f s)),
    (w.region, regionTerm f s), (w.stack, stackTerm f s)].filterMap
    fun (weight, term) => term.map fun value => (weight, value)

end Score

/-- The weighted mean of the terms that apply; zero if they have no weight. -/
def structuralScorer (w : Weights) : Scorer := fun f s =>
  let (weighted, total) := (Score.terms w f s).foldl
    (fun (acc : Float × Float) (t : Float × Float) => (acc.1 + t.1 * t.2, acc.2 + t.1))
    (0.0, 0.0)
  if total ≤ 0.0 then 0.0 else Score.clampUnit (weighted / total)

end OpcodeRecovery
