import Mathlib.Tactic
import OpcodeRecovery.Proofs.Code.Tiling
import OpcodeRecovery.Proofs.Ledger

/-!
What the four-byte operands of undeclared opcodes are taken for.

* `BranchOpcode` says of an opcode, from the bytes alone, that it behaves like a branch: one of its
  operands is not zero, and each of those leads to the start of an instruction.
* `Decode.fare_foldl`: the tally of an opcode counts the operands that lead to a start and those
  that do not. So the verdict on an opcode whose operands have four bytes is that it is a branch
  opcode (`Decode.verdict_iff`).
* `decoded_classified`: an operand is a branch exactly if its opcode is a branch opcode and it leads
  to a start itself; any other is a token or a number by its own value.
-/

namespace OpcodeRecovery

/-! ### Branch opcodes -/

/-- The four bytes behind the opcode of an instruction, as a signed number. -/
def Instruction.number (code : Bytes) (i : Instruction) : Int32 :=
  Decode.int32 ((code.drop (i.offset + 1)).take 4)

/-- Counted from the end of the instruction, the number behind its opcode leads to the start of one
of the instructions. -/
def Instruction.LeadsTo (code : Bytes) (is : List Instruction) (i : Instruction) (t : ℕ) : Prop :=
  (t : ℤ) = i.finish + (i.number code).toInt ∧ t ∈ is.map (·.offset)

/-- An opcode of which at least one operand is not zero, and each that is not leads to the start of
an instruction. -/
structure BranchOpcode (code : Bytes) (is : List Instruction) (o : UInt8) : Prop where
  ne_zero : ∃ i ∈ is, i.opcode = o ∧ i.number code ≠ 0
  leads : ∀ i ∈ is, i.opcode = o → i.number code ≠ 0 → ∃ t, i.LeadsTo code is t

section Alike

variable {code : Bytes} {is js : List Instruction} {i j : Instruction}

lemma Instruction.Alike.number (h : i.Alike j) : j.number code = i.number code := by
  rw [Instruction.number, Instruction.number, h.offset]

lemma Instruction.Alike.leadsTo (h : i.Alike j) (hmap : is.map (·.offset) = js.map (·.offset))
    {t : ℕ} (ht : i.LeadsTo code is t) : j.LeadsTo code js t := by
  rwa [LeadsTo, h.finish, h.number, ← hmap]

/-- Lists of instructions that are alike have the same branch opcodes. -/
lemma BranchOpcode.congr {o : UInt8} (h : List.Forall₂ Instruction.Alike is js)
    (hmap : is.map (·.offset) = js.map (·.offset)) (ho : BranchOpcode code is o) :
    BranchOpcode code js o := by
  obtain ⟨⟨i, hi, hopcode, hne⟩, hleads⟩ := ho
  refine ⟨?_, fun j hj hopcode hne => ?_⟩
  · obtain ⟨j, hj, halike⟩ := exists_mem_of_forall₂ h.flip hi
    exact ⟨j, hj, halike.opcode.trans hopcode, by rwa [halike.number]⟩
  · obtain ⟨i, hi, halike⟩ := exists_mem_of_forall₂ h hj
    obtain ⟨t, ht⟩ := hleads i hi (halike.opcode.symm.trans hopcode) (by rwa [← halike.number])
    exact ⟨t, halike.leadsTo hmap ht⟩

end Alike

namespace Decode

variable {table : ShapeTable} {widths : UInt8 → Width} {code : Bytes} {starts : OffsetSet}
  {i j : Instruction} {is js : List Instruction} {o : UInt8}

/-! ### The tally -/

/-- Whether an instruction has an open operand that is not zero, and that leads to a start or, if
so asked, to none. -/
def fares (starts : OffsetSet) (landed : Bool) (i : Instruction) : Bool :=
  (openOperand? i).any fun v =>
    v != 0 && (boundaryTarget? starts i.finish v).isSome == landed

/-- How an opcode has fared so far. -/
def fare (l : Ledger UInt8 Landings) (o : UInt8) : Landings := (l.get? o).getD ⟨0, 0⟩

/-- One more instruction counts for its own opcode, on one side at most. -/
lemma fare_tally (starts : OffsetSet) (l : Ledger UInt8 Landings) (i : Instruction) (o : UInt8) :
    fare (tally starts l i) o
      = ⟨(fare l o).landed + if i.opcode == o && fares starts true i then 1 else 0,
        (fare l o).missed + if i.opcode == o && fares starts false i then 1 else 0⟩ := by
  rw [tally]
  cases hopen : openOperand? i with
  | none => simp [fares, hopen]
  | some v =>
      by_cases hv : v = 0
      · simp [fares, hopen, hv]
      · by_cases ho : i.opcode = o
        · subst ho
          cases hlands : boundaryTarget? starts i.finish v <;>
            simp [fares, fare, hopen, hv, hlands]
        · simp [fares, fare, hopen, hv, ho, Ledger.get?_upsert_of_ne _ _ (Ne.symm ho)]

/-- The tally of an opcode counts its operands that lead to a start, and those that do not. -/
lemma fare_foldl (starts : OffsetSet) (l : Ledger UInt8 Landings) (is : List Instruction)
    (o : UInt8) :
    fare (is.foldl (tally starts) l) o
      = ⟨(fare l o).landed + is.countP fun i => i.opcode == o && fares starts true i,
        (fare l o).missed + is.countP fun i => i.opcode == o && fares starts false i⟩ := by
  induction is generalizing l with
  | nil => rfl
  | cons i is ih =>
      rw [List.foldl_cons, ih, fare_tally, List.countP_cons, List.countP_cons]
      simp only [Landings.mk.injEq]
      omega

/-- The verdict on an opcode, as the second look reads it off the tally. -/
def verdict (starts : OffsetSet) (is : List Instruction) (o : UInt8) : Bool :=
  (((landings starts is).get? o).map (·.isBranch)).getD false

/-- The verdict is for a branch exactly if some operand leads to a start and none leads
elsewhere. -/
lemma verdict_eq_true_iff :
    verdict starts is o = true
      ↔ (∃ i ∈ is, i.opcode = o ∧ fares starts true i = true)
        ∧ ∀ i ∈ is, i.opcode = o → fares starts false i = false := by
  have hfare : verdict starts is o = (fare (landings starts is) o).isBranch := by
    rw [verdict, fare]
    cases (landings starts is).get? o <;> rfl
  have hcounts := fare_foldl starts .empty is o
  rw [hfare, landings, hcounts]
  simp [Landings.isBranch, fare, List.countP_pos_iff, List.countP_eq_zero]

/-! ### The verdict -/

/-- The open operand of an instruction of an undeclared opcode is the number behind the opcode. -/
lemma ReadAt.openOperand?_eq (h : ReadAt table widths code i) (hnone : table.get? i.opcode = none)
    (hsize : i.size = 5) : openOperand? i = some (i.number code) := by
  obtain ⟨hsource, hread⟩ := h.inferred hnone
  have hwidth : widths i.opcode = .four := by
    have hfour := h.size_of_undeclared hnone
    cases hw : widths i.opcode <;> rw [hw] at hfour <;> simp_all [Width.size]
  rw [hwidth] at hread
  obtain ⟨v, rest, hbytes, hlen, hv⟩ := of_operandBytes_bind hread
  refine openOperand?_eq_some_iff.mpr ⟨hsource, ?_⟩
  rw [Instruction.number, hbytes, List.take_left' (show v.length = 4 from hlen)]
  exact (Except.ok.inj hv).symm

/-- An operand leads to a known start exactly if it leads to the start of an instruction. -/
lemma boundaryTarget?_iff_leadsTo (hread : ∀ i ∈ is, ReadAt table widths code i) {t : ℕ} :
    boundaryTarget? (startsOf code is) i.finish (i.number code) = some t ↔ i.LeadsTo code is t := by
  rw [boundaryTarget?_eq_some_iff, contains_startsOf hread, Instruction.LeadsTo]

/-- How an operand counts in the tally, said of the number behind the opcode. -/
lemma ReadAt.fares_iff (hread : ∀ i ∈ is, ReadAt table widths code i)
    (hi : ReadAt table widths code i) (hnone : table.get? i.opcode = none) (hsize : i.size = 5)
    (landed : Bool) :
    fares (startsOf code is) landed i = true
      ↔ i.number code ≠ 0 ∧ ((∃ t, i.LeadsTo code is t) ↔ landed = true) := by
  have hleads : (boundaryTarget? (startsOf code is) i.finish (i.number code)).isSome = true
      ↔ ∃ t, i.LeadsTo code is t := by
    rw [Option.isSome_iff_exists]
    exact exists_congr fun t => boundaryTarget?_iff_leadsTo hread
  rw [fares, hi.openOperand?_eq hnone hsize, Option.any_some, Bool.and_eq_true, bne_iff_ne,
    beq_iff_eq, ← hleads, ← Bool.eq_iff_iff]

/-- **The verdict** on an undeclared opcode with four-byte operands is that it is a branch
opcode. -/
lemma verdict_iff (hread : ∀ i ∈ is, ReadAt table widths code i) (hnone : table.get? o = none)
    (hsize : ∀ i ∈ is, i.opcode = o → i.size = 5) :
    verdict (startsOf code is) is o = true ↔ BranchOpcode code is o := by
  have hfares : ∀ i ∈ is, i.opcode = o → ∀ landed, fares (startsOf code is) landed i = true
      ↔ i.number code ≠ 0 ∧ ((∃ t, i.LeadsTo code is t) ↔ landed = true) := fun i hi ho =>
    ReadAt.fares_iff hread (hread i hi) (ho ▸ hnone) (hsize i hi ho)
  rw [verdict_eq_true_iff]
  constructor
  · rintro ⟨⟨i, hi, ho, hlands⟩, hall⟩
    refine ⟨⟨i, hi, ho, ((hfares i hi ho true).mp hlands).1⟩, fun i hi ho hne => ?_⟩
    by_contra hno
    have hmisses := (hfares i hi ho false).mpr ⟨hne, by simp [hno]⟩
    rw [hall i hi ho] at hmisses
    cases hmisses
  · rintro ⟨⟨i, hi, ho, hne⟩, hleads⟩
    refine ⟨⟨i, hi, ho, (hfares i hi ho true).mpr ⟨hne, ?_⟩⟩, fun i hi ho => ?_⟩
    · simpa using hleads i hi ho hne
    · rw [← Bool.not_eq_true, hfares i hi ho false]
      rintro ⟨hne, hmisses⟩
      exact absurd (hmisses.mp (hleads i hi ho hne)) (by decide)

/-! ### The second look -/

/-- What a four-byte operand is by its own value: a token if it looks like one, else a number. -/
def plain (v : Int32) : Operand :=
  if (Token.mk v.toUInt32).isPlausibleReference then .token ⟨v.toUInt32⟩ else .int32 v

lemma plain_ne_branch (v : Int32) (t : ℕ) : plain v ≠ .branch t := by
  rw [plain]
  split_ifs <;> simp

lemma classify_eq_branch_iff {finish t : ℕ} {isBranch : Bool} {v : Int32} :
    classify starts finish isBranch v = .branch t
      ↔ isBranch = true ∧ boundaryTarget? starts finish v = some t := by
  cases isBranch with
  | false => exact ⟨fun h => absurd h (plain_ne_branch v t), by simp⟩
  | true =>
      cases ht : boundaryTarget? starts finish v with
      | some u => simp [classify, ht]
      | none =>
          have hplain : classify starts finish true v = plain v := by simp [classify, ht, plain]
          simpa [hplain] using plain_ne_branch v t

/-- An operand that is no branch is what it is by its own value. -/
lemma classify_eq_plain {finish : ℕ} {isBranch : Bool} {v : Int32}
    (h : ∀ t, classify starts finish isBranch v ≠ .branch t) :
    classify starts finish isBranch v = plain v := by
  cases isBranch with
  | false => rfl
  | true =>
      cases ht : boundaryTarget? starts finish v with
      | some u => exact absurd (classify_eq_branch_iff.mpr ⟨rfl, ht⟩) (h u)
      | none => simp [classify, ht, plain]

/-- A four-byte operand of an undeclared opcode is classified by the verdict on the opcode. -/
lemma Settled.operand_eq (hread : ∀ i ∈ is, ReadAt table widths code i) (h : Settled code is js)
    (hj : j ∈ js) (hnone : table.get? j.opcode = none) (hsize : j.size = 5) :
    j.operand = classify (startsOf code is) j.finish (verdict (startsOf code is) is j.opcode)
      (j.number code) := by
  obtain ⟨i, hi, hone⟩ := exists_mem_of_forall₂ h hj
  have halike := (settleOne_frame hone).1
  have hopen := (hread i hi).openOperand?_eq (halike.opcode ▸ hnone) (halike.size ▸ hsize)
  rw [halike.finish, halike.number, halike.opcode]
  rw [settleOne, hopen] at hone
  obtain rfl := Except.ok.inj hone
  rfl

lemma Settled.branchOpcode_iff (h : Settled code is js) :
    BranchOpcode code is o ↔ BranchOpcode code js o :=
  ⟨.congr h.alike h.map_offset,
    .congr (h.alike.flip.imp fun _ _ halike => halike.symm) h.map_offset.symm⟩

/-- A four-byte operand of an undeclared opcode is a branch exactly if the opcode is a branch opcode
and the operand leads to a start. -/
lemma Settled.operand_eq_branch_iff (htiles : Tiles 0 is code.length)
    (hread : ∀ i ∈ is, ReadAt table widths code i) (h : Settled code is js)
    (hj : j ∈ js) (hnone : table.get? j.opcode = none) (hsize : j.size = 5) {t : ℕ} :
    j.operand = .branch t ↔ BranchOpcode code js j.opcode ∧ j.LeadsTo code js t := by
  -- all operands of the opcode have four bytes, since this one does
  have hfour : ∀ i ∈ is, i.opcode = j.opcode → i.size = 5 := by
    intro i hi hopcode
    obtain ⟨k, hk, halike⟩ := exists_mem_of_forall₂ h.alike.flip hi
    have hcommon := ((h.disassembly htiles hread).inferred j hj hnone).2
    rw [← halike.size, hcommon k hk (halike.opcode.trans hopcode), hsize]
  rw [h.operand_eq hread hj hnone hsize, classify_eq_branch_iff, verdict_iff hread hnone hfour,
    boundaryTarget?_iff_leadsTo hread, h.branchOpcode_iff, Instruction.LeadsTo,
    Instruction.LeadsTo, h.map_offset]

end Decode

/-- **How four-byte operands are classified.** Take an instruction of a decoded code whose opcode is
not declared and whose operand has four bytes. The operand is a branch to the place it leads to
exactly if the opcode is a branch opcode and the place is the start of an instruction. Otherwise it
is a token, if the top byte of its value is a table that operands refer to and the low three bytes
are not zero, and a number if not. If it is a branch, then each operand of the opcode is one that
leads to a start; and an opcode whose operands are all zero has no branches. -/
theorem decoded_classified {table : ShapeTable} {code : Bytes} {is : List Instruction}
    (h : decodeCode table code = .ok is) :
    ∀ i ∈ is, table.get? i.opcode = none → i.size = 5 →
      (∀ t, i.operand = .branch t ↔ BranchOpcode code is i.opcode ∧ i.LeadsTo code is t)
      ∧ ((∀ t, i.operand ≠ .branch t) → i.operand =
          if (Token.mk (i.number code).toUInt32).table ∈ Token.referencedTables
            ∧ (Token.mk (i.number code).toUInt32).row ≠ 0
          then .token ⟨(i.number code).toUInt32⟩ else .int32 (i.number code))
      ∧ (∀ t, i.operand = .branch t → ∀ j ∈ is, j.opcode = i.opcode →
          ∀ u, j.operand = .branch u ↔ j.LeadsTo code is u)
      ∧ ((∀ j ∈ is, j.opcode = i.opcode → j.number code = 0) → ∀ t, i.operand ≠ .branch t) := by
  obtain ⟨is₀, widths, htiles, hread, hsettled⟩ := Decode.exists_settled h
  have hbranch : ∀ i ∈ is, table.get? i.opcode = none → i.size = 5 → ∀ t, i.operand = .branch t
      ↔ BranchOpcode code is i.opcode ∧ i.LeadsTo code is t := fun i hi hnone hsize t =>
    hsettled.operand_eq_branch_iff htiles hread hi hnone hsize
  intro i hi hnone hsize
  refine ⟨hbranch i hi hnone hsize, fun hne => ?_, fun t ht j hj hopcode u => ?_,
    fun hzero t ht => ?_⟩
  · rw [hsettled.operand_eq hread hi hnone hsize] at hne ⊢
    rw [Decode.classify_eq_plain hne, Decode.plain]
    simp [Token.isPlausibleReference, and_comm]
  · obtain ⟨hverdict, -⟩ := (hbranch i hi hnone hsize t).mp ht
    have hcommon := ((hsettled.disassembly htiles hread).inferred i hi hnone).2 j hj hopcode
    rw [hbranch j hj (hopcode ▸ hnone) (hcommon.trans hsize), hopcode]
    exact and_iff_right hverdict
  · obtain ⟨⟨⟨j, hj, hopcode, hne⟩, -⟩, -⟩ := (hbranch i hi hnone hsize t).mp ht
    exact hne (hzero j hj hopcode)

/-- In the loop, the opcode that leads back is a branch opcode, and its zero operand at the end of
the code is no branch, since it leads to no instruction. -/
theorem decoded_classified_loop :
    decodeCode loopTable loopCode = .ok loopListing
      ∧ BranchOpcode loopCode loopListing 0x50
      ∧ (Instruction.mk 13 5 0x50 (.branch 0) .inferred).LeadsTo loopCode loopListing 0
      ∧ ∀ t, ¬ (Instruction.mk 19 5 0x50 (.int32 0) .inferred).LeadsTo loopCode loopListing t := by
  have hcode : decodeCode loopTable loopCode = .ok loopListing := by decide +kernel
  have hback := decoded_classified hcode ⟨13, 5, 0x50, .branch 0, .inferred⟩ (by decide)
    (by decide) rfl
  have hlast := decoded_classified hcode ⟨19, 5, 0x50, .int32 0, .inferred⟩ (by decide)
    (by decide) rfl
  obtain ⟨hbranch, hleads⟩ := (hback.1 0).mp rfl
  exact ⟨hcode, hbranch, hleads, fun t ht => by cases (hlast.1 t).mpr ⟨hbranch, ht⟩⟩

end OpcodeRecovery
