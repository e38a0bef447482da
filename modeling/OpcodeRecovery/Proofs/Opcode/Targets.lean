import Mathlib.Tactic
import OpcodeRecovery.Proofs.Code.Leaders
import OpcodeRecovery.Proofs.Opcode.Conservation

/-!
What the counter of branch targets counts.

The counter goes by the leaders of a method, and leaves out the first instruction, which is a leader
in any case. Leaders are also the starts of protected code and of handlers. So the counter differs
from the number of instructions that another one leads to (`Method.targeted`) in two ways: it misses
the first instruction where the method leads back to it (`Method.reentered`), and it counts starts of
regions that no instruction leads to (`Method.strays`).

* `ProfileSet.sum_branchTarget`: the instructions of a method add one for each leader behind the
  first instruction.
* `Method.isLeader_iff_of_mem_drop`: in a decoded method, these are the targets and the starts of
  regions.
* `ProfileSet.branchTarget_exact_iff`: the balance of the four numbers, and that the counter is exact
  if and only if the two differences cancel.
-/

namespace OpcodeRecovery

/-- Of two ways to be counted, the second counts where the first does not. -/
lemma countP_and_or {α : Type} (l : List α) (p t r : α → Prop) [DecidablePred p] [DecidablePred t]
    [DecidablePred r] :
    (l.countP fun x => p x ∧ (t x ∨ r x))
      = (l.countP fun x => p x ∧ t x) + l.countP fun x => p x ∧ r x ∧ ¬ t x := by
  rw [List.countP_eq_countP_filter_add l _ fun x => t x, List.countP_filter, List.countP_filter]
  congr 1 <;> refine List.countP_congr fun x _ => ?_
  · simp only [Bool.and_eq_true, decide_eq_true_eq]
    tauto
  · simp only [Bool.and_eq_true, Bool.not_eq_true', decide_eq_true_eq, decide_eq_false_iff_not]
    tauto

namespace Method

/-- Some instruction leads to the offset. -/
def IsTarget (m : Method) (o : ℕ) : Prop := ∃ i ∈ m.instructions.toList, o ∈ i.targets

instance (m : Method) (o : ℕ) : Decidable (m.IsTarget o) :=
  inferInstanceAs (Decidable (∃ i ∈ m.instructions.toList, o ∈ i.targets))

instance (m : Method) (o : ℕ) : Decidable (m.StartsRegion o) :=
  inferInstanceAs (Decidable (∃ r ∈ m.regions, o = r.tryStart ∨ o = r.handlerStart))

/-- How many instructions with the opcode some instruction leads to. -/
def targeted (m : Method) (a : UInt8) : ℕ :=
  m.instructions.toList.countP fun i => i.opcode = a ∧ m.IsTarget i.offset

/-- One if the first instruction has the opcode and some instruction leads back to it. -/
def reentered (m : Method) (a : UInt8) : ℕ :=
  (m.instructions.toList.take 1).countP fun i => i.opcode = a ∧ m.IsTarget i.offset

/-- How many instructions with the opcode, behind the first one, stand where a region starts and no
instruction leads to. -/
def strays (m : Method) (a : UInt8) : ℕ :=
  (m.instructions.toList.drop 1).countP
    fun i => i.opcode = a ∧ m.StartsRegion i.offset ∧ ¬ m.IsTarget i.offset

/-! ### Leaders behind the first instruction -/

/-- Behind the first instruction of a decoded method, the leaders among the instructions are the
targets and the starts of regions. -/
lemma isLeader_iff_of_mem_drop {table : ShapeTable} {stream : Stream} {m : Method}
    (h : decodeMethod table stream = .ok m) {i : Instruction}
    (hi : i ∈ m.instructions.toList.drop 1) :
    m.isLeader i.offset = true ↔ m.IsTarget i.offset ∨ m.StartsRegion i.offset := by
  obtain ⟨code, regions, is, -, -, his, rfl⟩ := decodeMethod_eq_ok_iff.mp h
  obtain ⟨is₀, widths, htiles, hread, hsettled⟩ := Decode.exists_settled his
  have hdis := hsettled.disassembly htiles hread
  have hascending := (htiles.congr hsettled.alike).pairwise_offset
  change i ∈ is.drop 1 at hi
  have hlt : i.offset < code.length :=
    (List.getElem?_eq_some_iff.mp (hdis.opcode i (List.mem_of_mem_drop hi))).1
  have hnotFirst : ¬ ∃ first ∈ is.head?, i.offset = first.offset := by
    rintro ⟨first, hfirst, heq⟩
    cases is with
    | nil => simp at hfirst
    | cons j is =>
        obtain rfl : j = first := Option.some.inj hfirst
        have hbehind := (List.pairwise_cons.mp hascending).1 i hi
        omega
  rw [isLeader_ofParts_iff]
  simp only [hlt, hnotFirst, true_and, false_or]
  rfl

end Method

namespace ProfileSet

/-! ### Counting one method -/

/-- Behind an instruction, each leader adds one. -/
lemma sum_branchTarget_some (m : Method) (before : Instruction) (seen : List UInt8)
    (is : List Instruction) (a : UInt8) :
    ((contributions m (some before) seen is).map
        fun p => if p.opcode = a then p.branchTarget else 0).sum
      = is.countP fun i => i.opcode = a ∧ m.isLeader i.offset = true := by
  induction is generalizing before seen with
  | nil => rfl
  | cons i is ih =>
      rw [contributions, List.map_cons, List.sum_cons, ih, List.countP_cons, Nat.add_comm]
      congr 1
      by_cases ha : i.opcode = a <;> by_cases hleader : m.isLeader i.offset = true <;>
        simp [Profile.ofInstruction, Profile.tick, ha, hleader]

/-- The first instruction adds nothing, and each leader behind it adds one. -/
lemma sum_branchTarget (m : Method) (is : List Instruction) (a : UInt8) :
    ((contributions m none [] is).map fun p => if p.opcode = a then p.branchTarget else 0).sum
      = (is.drop 1).countP fun i => i.opcode = a ∧ m.isLeader i.offset = true := by
  cases is with
  | nil => rfl
  | cons i is =>
      rw [contributions, List.map_cons, List.sum_cons, sum_branchTarget_some]
      simp [Profile.ofInstruction, Profile.tick]

/-- How many branch targets are counted for an opcode. -/
def branchTargets (s : ProfileSet) (a : UInt8) : ℕ := countOf (·.branchTarget) s.profiles a

/-- **The counter of branch targets**, when a decoded method is counted: what it misses and what was
there before make up for the targets and what it counts without reason. So it grows by the number of
instructions that are targets exactly if it misses as many as it counts without reason. -/
theorem branchTarget_exact_iff {table : ShapeTable} {stream : Stream} {m : Method}
    (h : decodeMethod table stream = .ok m) (s : ProfileSet) (a : UInt8) :
    (s.accumulate m).branchTargets a + m.reentered a
        = s.branchTargets a + m.targeted a + m.strays a
    ∧ ((s.accumulate m).branchTargets a = s.branchTargets a + m.targeted a
      ↔ m.reentered a = m.strays a) := by
  have hgrowth : (s.accumulate m).branchTargets a = s.branchTargets a
      + (m.instructions.toList.drop 1).countP
        fun i => i.opcode = a ∧ (m.IsTarget i.offset ∨ m.StartsRegion i.offset) := by
    rw [branchTargets, accumulate_eq_merge, merge, countOf_mergeWith (fun _ _ => rfl),
      countOf_accumulate (fun _ _ => rfl), sum_branchTarget, branchTargets]
    congr 1
    refine List.countP_congr fun i hi => ?_
    rw [decide_eq_true_eq, decide_eq_true_eq, Method.isLeader_iff_of_mem_drop h hi]
  have htargeted : m.targeted a = m.reentered a
      + (m.instructions.toList.drop 1).countP fun i => i.opcode = a ∧ m.IsTarget i.offset := by
    rw [Method.targeted, Method.reentered, ← List.countP_append, List.take_append_drop]
  rw [countP_and_or, ← Method.strays] at hgrowth
  omega

/-- A method that leads back to its first instruction from protected code, and whose handler is its
last instruction. No instruction leads to the handler. -/
def guardedLoop (last : UInt8) : Method :=
  Method.ofParts ⟨⟨0x06000001⟩, 7⟩ 7
    [⟨0, 1, 0x01, .none, .declared⟩, ⟨1, 5, 0x30, .branch 0, .declared⟩,
      ⟨6, 1, last, .none, .declared⟩]
    [⟨.finally, 0, 6, 6, 1⟩]

/-- The stream that the method is decoded from. -/
def guardedLoopStream (last : UInt8) : Stream :=
  ⟨⟨⟨0x06000001⟩, 7⟩, [0x01, 1] ++ [2, 0, 0, 0, 0, 6, 0, 0, 0, 6, 0, 0, 0, 1, 0, 0, 0]
    ++ [0x01] ++ [0x30, 0xFA, 0xFF, 0xFF, 0xFF] ++ [last]⟩

/-- The shapes that are declared for it. -/
def guardedLoopTable : ShapeTable :=
  ((ShapeTable.default.declare 0x01 .none).declare 0x02 .none).declare 0x30 .branch

/-- Where the first and the last instruction have one opcode, the counter is exact by cancelling. -/
theorem branchTarget_exact_iff_cancelling :
    decodeMethod guardedLoopTable (guardedLoopStream 0x01) = .ok (guardedLoop 0x01)
      ∧ (guardedLoop 0x01).reentered 0x01 = 1 ∧ (guardedLoop 0x01).strays 0x01 = 1
      ∧ (empty.accumulate (guardedLoop 0x01)).branchTargets 0x01
        = empty.branchTargets 0x01 + (guardedLoop 0x01).targeted 0x01 := by
  have hdecode : decodeMethod guardedLoopTable (guardedLoopStream 0x01) = .ok (guardedLoop 0x01) := by
    decide +kernel
  have hreentered : (guardedLoop 0x01).reentered 0x01 = 1 := by decide +kernel
  have hstrays : (guardedLoop 0x01).strays 0x01 = 1 := by decide +kernel
  refine ⟨hdecode, hreentered, hstrays, ?_⟩
  exact (branchTarget_exact_iff hdecode empty 0x01).2.mpr (hreentered.trans hstrays.symm)

/-- Where they have two opcodes, the counter misses the target of the loop and counts the handler. -/
theorem branchTargets_guardedLoop :
    decodeMethod guardedLoopTable (guardedLoopStream 0x02) = .ok (guardedLoop 0x02)
      ∧ (guardedLoop 0x02).targeted 0x01 = 1
      ∧ (empty.accumulate (guardedLoop 0x02)).branchTargets 0x01 = empty.branchTargets 0x01
      ∧ (guardedLoop 0x02).targeted 0x02 = 0
      ∧ (empty.accumulate (guardedLoop 0x02)).branchTargets 0x02 = empty.branchTargets 0x02 + 1 := by
  decide +kernel

end ProfileSet

end OpcodeRecovery
