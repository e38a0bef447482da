import OpcodeRecovery.Opcode.Signature
import OpcodeRecovery.Text.Fixed
import OpcodeRecovery.Text.Hex

/-!
Mappings: what was found out about each opcode.

A `Verdict` either names an instruction or says why none is named. `Mapping.violations` lists
the mnemonics that are named for several opcodes although only one opcode may stand for them.
-/

namespace OpcodeRecovery

/-- An instruction with its score. -/
structure Candidate where
  mnemonic : String
  score : Float

/-- What was found out about an opcode. -/
inductive Verdict where
  /-- The opcode stands for this instruction. -/
  | resolved (candidate : Candidate)
  /-- The opcode was met too rarely. -/
  | noEvidence (occurrences : Nat)
  /-- No instruction fits well enough; the best that was left is given. -/
  | lowConfidence (best : Option Candidate)
  /-- Several instructions fit equally well. -/
  | ambiguous (candidates : List Candidate)
  /-- Several opcodes fit an instruction equally well of which there is only one. -/
  | conflict (mnemonic : String) (opcodes : List UInt8)

/-- An opcode in hexadecimal. -/
def opcodeText (opcode : UInt8) : String := "0x" ++ Hex.upper 2 opcode.toNat

/-- A candidate with its score to two places. -/
def Candidate.text (c : Candidate) : String :=
  c.mnemonic ++ " (" ++ Fixed.text 2 c.score ++ ")"

namespace Verdict

/-- The instruction an opcode stands for. -/
def mnemonic? : Verdict → Option String
  | resolved c => some c.mnemonic
  | _ => none

/-- Whether an instruction is named. -/
def isResolved (v : Verdict) : Bool := v.mnemonic?.isSome

/-- A verdict in words. -/
def text : Verdict → String
  | resolved c => c.text
  | noEvidence occurrences => s!"no evidence ({occurrences} occurrences)"
  | lowConfidence (some best) => "low confidence, best " ++ best.text
  | lowConfidence none => "low confidence, no candidate left"
  | ambiguous candidates => "ambiguous between " ++ ", ".intercalate (candidates.map (·.text))
  | conflict mnemonic opcodes =>
    "conflict over " ++ mnemonic ++ " between"
      ++ String.join (opcodes.map fun o => " " ++ opcodeText o)

end Verdict

/-- The verdicts on all opcodes, reached with signatures of some version. -/
structure Mapping where
  version : UInt32
  verdicts : Ledger UInt8 Verdict

namespace Mapping

/-- The verdict on an opcode. -/
def get? (m : Mapping) (opcode : UInt8) : Option Verdict := m.verdicts.get? opcode

/-- The number of opcodes. -/
def size (m : Mapping) : Nat := m.verdicts.size

/-- The opcodes for which an instruction is named, with its mnemonic. -/
def resolved (m : Mapping) : List (UInt8 × String) :=
  m.verdicts.entries.filterMap fun e => e.2.mnemonic?.map fun name => (e.1, name)

/-- The opcodes for which no instruction is named. -/
def unresolved (m : Mapping) : List (UInt8 × Verdict) :=
  m.verdicts.entries.filter fun e => !e.2.isResolved

/-- The number of opcodes for which an instruction is named. -/
def resolvedCount (m : Mapping) : Nat := m.resolved.length

/-- Whether an instruction is named for every opcode. -/
def isComplete (m : Mapping) : Bool := m.resolvedCount == m.size

/-- The warnings about opcodes for which no instruction is named. -/
def warnings (m : Mapping) : List String :=
  m.unresolved.map fun e => "opcode " ++ opcodeText e.1 ++ " unresolved: " ++ e.2.text

/-- The opcodes that stand for a mnemonic, ascending. -/
def opcodesFor (m : Mapping) (mnemonic : String) : List UInt8 :=
  m.resolved.filterMap fun e => if e.2 = mnemonic then some e.1 else none

/-- The mnemonics that are named, each once, in ascending order of their characters. -/
def mnemonics (m : Mapping) : List String :=
  ((m.resolved.map (·.2)).eraseDups).mergeSort fun a b => decide (a ≤ b)

/-- The mnemonics named for several opcodes although only one opcode may stand for them,
with these opcodes. A mnemonic that the table does not have may only stand for one. -/
def violations (m : Mapping) (table : SignatureTable) : List (String × List UInt8) :=
  (m.mnemonics.map fun name => (name, m.opcodesFor name)).filter fun e =>
    decide (1 < e.2.length) && ((table.get? e.1).map (·.unique)).getD true

/-- The mapping as text, one line an opcode. -/
def text (m : Mapping) : String :=
  String.join (m.verdicts.entries.map fun e =>
    opcodeText e.1 ++ " => " ++ (if e.2.isResolved then "" else "? ") ++ e.2.text ++ "\n")

end Mapping

end OpcodeRecovery
