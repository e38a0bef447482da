import Mathlib.Tactic
import OpcodeRecovery.Code.Decode
import OpcodeRecovery.Proofs.Outcome

/-!
How decoding fails.

* `Decode.FaultAt p`: the operand at a place does not fit, or a target leads out of the code
  (`Decode.LeadsOut`). An instruction that is not read fails so (`Decode.instruction_fails`).
* `CodeFault` are the errors of code (`decodeCode_fails`), all of them faults in the bytes
  (`decodeCode_faulty`), and `StreamFault` those of a method stream (`decodeMethod_fails`). Among
  the latter is one that is no fault: the data may end in the number of the exception regions.
* So an error of decoding is a first-hand one, neither the report of an earlier failure nor a breach
  of the cache (`decodeMethod_firsthand`).
-/

namespace OpcodeRecovery

variable {table : ShapeTable}

namespace Decode

/-! ### Operands -/

/-- The error is that a target of the instruction at a place leads out of the code. -/
def LeadsOut (p : Place) (e : Error) : Prop :=
  ∃ t, e = .format (.targetOutside t p.opcode p.offset p.codeSize)

/-- An error of the instruction at a place. -/
inductive FaultAt (p : Place) : Error → Prop where
  | overrun (needed remaining : ℕ) :
      FaultAt p (.format (.operandOverrun p.opcode p.offset needed remaining))
  | outside {e : Error} (h : LeadsOut p e) : FaultAt p e

lemma operandBytes_fails (p : Place) (before n : ℕ) (bs : Bytes) :
    FailsBy (FaultAt p) (operandBytes p before n bs) :=
  .require (.overrun _ _) _

lemma target_fails (p : Place) (finish : ℕ) (relative : Int32) :
    FailsBy (LeadsOut p) (target p finish relative) := by
  rw [target]
  split_ifs
  · exact .ok _
  · exact .reject ⟨_, rfl⟩

lemma targets_fails (p : Place) (finish n : ℕ) (bs : Bytes) :
    FailsBy (LeadsOut p) (targets p finish n bs) := by
  induction n generalizing bs with
  | zero => exact .ok []
  | succ n ih =>
      exact (target_fails p finish _).bind fun t => (ih _).bind fun ts => .ok (t :: ts)

lemma declaredOperand_fails (p : Place) (bs : Bytes) (shape : OperandShape) :
    FailsBy (FaultAt p) (declaredOperand p bs shape) := by
  cases shape with
  | none => exact .ok _
  | byte | int32 | int64 | token => exact (operandBytes_fails p _ _ bs).bind fun _ => .ok _
  | branch =>
      refine (operandBytes_fails p _ _ bs).bind fun _ => ?_
      exact ((target_fails p _ _).mono fun _ => .outside).bind fun _ => .ok _
  | switch =>
      refine (operandBytes_fails p _ _ bs).bind fun _ => ?_
      refine (operandBytes_fails p _ _ _).bind fun _ => ?_
      exact ((targets_fails p _ _ _).mono fun _ => .outside).bind fun _ => .ok _

lemma inferredOperand_fails (p : Place) (bs : Bytes) (width : Width) :
    FailsBy (FaultAt p) (inferredOperand p bs width) := by
  refine (operandBytes_fails p _ _ bs).bind fun _ => ?_
  cases width <;> exact .ok _

lemma instruction_fails (memory : Width.Memory) (p : Place) (bs : Bytes) :
    FailsBy (FaultAt p) (instruction table memory p bs) := by
  rw [instruction]
  cases table.get? p.opcode with
  | some shape => exact (declaredOperand_fails p bs shape).bind fun _ => .ok _
  | none => exact (inferredOperand_fails p bs _).bind fun _ => .ok _

end Decode

/-! ### Code -/

/-- An error of code: one of an instruction, or a target that is not the start of one. -/
inductive CodeFault : Error → Prop where
  | read {p : Decode.Place} {e : Error} (h : Decode.FaultAt p e) : CodeFault e
  | inside (opcode : UInt8) (offset target : ℕ) :
      CodeFault (.format (.targetInside opcode offset target))

lemma CodeFault.exists_fault {e : Error} (h : CodeFault e) : ∃ fault, e = .format fault := by
  cases h with
  | read h =>
      cases h with
      | overrun needed remaining => exact ⟨_, rfl⟩
      | outside h => exact ⟨_, h.choose_spec⟩
  | inside opcode offset target => exact ⟨_, rfl⟩

namespace Decode

lemma scan_fails (codeSize : ℕ) (memory : Width.Memory) (offset : ℕ) (bs : Bytes) :
    FailsBy CodeFault (scan table codeSize memory offset bs) := by
  fun_induction scan table codeSize memory offset bs with
  | case1 => exact .ok []
  | case2 memory offset opcode rest ih =>
      refine ((instruction_fails memory _ rest).mono fun e => .read).bind fun r => ?_
      exact (ih r.1 r.2).bind fun is => .ok (r.1 :: is)

lemma settleOne_fails (starts : OffsetSet) (verdicts : Ledger UInt8 Landings)
    (i : Instruction) :
    FailsBy (fun e => ∃ opcode offset t, e = .format (.targetInside opcode offset t))
      (settleOne starts verdicts i) := by
  rw [settleOne]
  cases openOperand? i with
  | some v => exact .ok _
  | none =>
      dsimp only
      split_ifs
      · exact .ok i
      · cases i.targets.find? (!starts.contains ·) with
        | some t => exact .reject ⟨_, _, _, rfl⟩
        | none => exact .ok i

/-- The second look finds nothing but targets inside instructions. -/
lemma settle_fails (codeSize : ℕ) (is : List Instruction) :
    FailsBy (fun e => ∃ opcode offset t, e = .format (.targetInside opcode offset t))
      (settle codeSize is) :=
  .mapM (settleOne_fails _ _) is

end Decode

lemma decodeCode_fails (code : Bytes) : FailsBy CodeFault (decodeCode table code) := by
  refine (Decode.scan_fails code.length [] 0 code).bind fun is => ?_
  refine (Decode.settle_fails code.length is).mono ?_
  rintro e ⟨opcode, offset, t, rfl⟩
  exact .inside opcode offset t

/-- Code is malformed, if it is not decoded. -/
lemma decodeCode_faulty (code : Bytes) : Faulty (decodeCode table code) :=
  (decodeCode_fails code).mono fun _ h => h.exists_fault

/-! ### Methods -/

/-- An error of a method stream: one of its code, of its regions, or of what stands before them. -/
inductive StreamFault : Error → Prop where
  | code {e : Error} (h : CodeFault e) : StreamFault e
  | empty : StreamFault (.format .emptyStream)
  | flags (bits : ℕ) : StreamFault (.format (.unknownMethodFlags bits))
  | truncated : StreamFault .outOfBounds
  | overflow (offset : ℕ) : StreamFault (.format (.sevenBitOverflow offset))
  | longTable (count size : ℕ) : StreamFault (.format (.longRegionTable count size))
  | regionKind (kind : ℕ) : StreamFault (.format (.unknownRegionKind kind))
  | regionOutside (codeSize tryStart tryLength handlerStart handlerLength : ℕ) :
      StreamFault
        (.format (.regionOutside codeSize tryStart tryLength handlerStart handlerLength))

lemma Decode.checkRegion_fails (codeSize : ℕ) (r : RegionRecord) :
    FailsBy StreamFault (checkRegion codeSize r) := by
  rw [checkRegion]
  cases RegionKind.ofNumber? r.kind with
  | none => exact .reject (.regionKind _)
  | some kind =>
      dsimp only
      split_ifs
      · exact .ok _
      · exact .reject (.regionOutside ..)

lemma Decode.splitStream_fails (data : Bytes) : FailsBy StreamFault (splitStream data) := by
  cases data with
  | nil => exact .reject .empty
  | cons flags rest =>
      rw [splitStream]
      split_ifs
      · exact .reject (.flags _)
      · exact .ok _
      · cases SevenBit.decode rest with
        | truncated n =>
            intro e he
            cases he
            exact .truncated
        | overflow n => exact .reject (.overflow n)
        | value count n tail =>
            dsimp only
            split_ifs
            · exact .ok _
            · exact .reject (.longTable ..)

/-- A stream is malformed, or ends in the number of its regions, if it is not decoded. -/
lemma decodeMethod_fails (stream : Stream) : FailsBy StreamFault (decodeMethod table stream) := by
  refine (Decode.splitStream_fails stream.data).bind fun parts => ?_
  refine (FailsBy.mapM (Decode.checkRegion_fails _) _).bind fun regions => ?_
  exact ((decodeCode_fails parts.2).mono fun e => .code).bind fun is => .ok _

/-- The error is neither a breach of the cache nor the report of an earlier failure. -/
def Error.Firsthand (e : Error) : Prop :=
  e.isFatal = false ∧ ∀ key text, e ≠ .methodFailed key text

lemma Error.Firsthand.format (fault : Fault) : (Error.format fault).Firsthand :=
  ⟨rfl, fun _ _ h => by cases h⟩

lemma StreamFault.firsthand {e : Error} (h : StreamFault e) : e.Firsthand := by
  cases h with
  | code h =>
      obtain ⟨fault, rfl⟩ := h.exists_fault
      exact .format fault
  | truncated => exact ⟨rfl, fun _ _ h => by cases h⟩
  | empty | flags | overflow | longTable | regionKind | regionOutside => exact .format _

lemma decodeMethod_firsthand {stream : Stream} {e : Error}
    (h : decodeMethod table stream = .error e) : e.Firsthand :=
  (decodeMethod_fails stream e h).firsthand

end OpcodeRecovery
