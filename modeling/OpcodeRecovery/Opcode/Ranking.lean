import OpcodeRecovery.Opcode.Mapping
import OpcodeRecovery.Opcode.Score

/-!
Rankings: all signatures of a table in the order in which they fit an opcode.

Whatever a scorer says is first brought between zero and one, what is no number counting as
zero. Signatures then stand by descending score, equal scores in the order of the table.
Scores are compared through `Score.orderKey`, which numbers all doubles in ascending order,
negative zero below zero; so the order is total and leaves no choice.
-/

namespace OpcodeRecovery

namespace Score

/-- The score that counts: zero for what is no number, else the nearest value between zero
and one. -/
def normalize (x : Float) : Float := if x.isNaN then 0.0 else clampUnit x

/-- The place of a double in the ascending order of all doubles. -/
def orderKey (x : Float) : Nat :=
  let bits := x.toBits.toNat
  if bits < 0x8000000000000000 then 0x8000000000000000 + bits else 0xFFFFFFFFFFFFFFFF - bits

end Score

/-- A signature with its place in the table and its score for some opcode. -/
structure Scored where
  index : Nat
  signature : Signature
  score : Float

namespace Scored

/-- The candidate to be reported. -/
def candidate (s : Scored) : Candidate := ⟨s.signature.mnemonic, s.score⟩

/-- Whether `a` stands before `b` or is `b`: a higher score, or the same score and an earlier
place in the table. -/
def before (a b : Scored) : Bool :=
  let ka := Score.orderKey a.score
  let kb := Score.orderKey b.score
  decide (kb < ka) || (ka == kb && decide (a.index ≤ b.index))

end Scored

/-- All signatures of a table, best first. -/
abbrev Ranking := List Scored

namespace Ranking

/-- The signatures of a table with their scores, in the order of the table. -/
def scores (table : SignatureTable) (scorer : Scorer) (f : Features) : Ranking :=
  table.signatures.zipIdx.map fun (s, i) => ⟨i, s, Score.normalize (scorer f s)⟩

/-- The signatures of a table in the order in which they fit. -/
def ofFeatures (table : SignatureTable) (scorer : Scorer) (f : Features) : Ranking :=
  (scores table scorer f).mergeSort Scored.before

/-- The signatures that may still be chosen: those not taken, and those that may stand for
several opcodes. -/
def available (taken : List Nat) (r : Ranking) : Ranking :=
  r.filter fun s => !taken.contains s.index || !s.signature.unique

end Ranking

end OpcodeRecovery
