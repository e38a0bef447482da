import Mathlib.Tactic
import OpcodeRecovery.Proofs.Bisect
import OpcodeRecovery.Proofs.Code.Header
import OpcodeRecovery.Proofs.Code.Spelling

/-!
Decoded instructions tile the code, and every target is the start of one of them.

* `Decode.ReadAt table widths code i`: the instruction is what is read at its place of the code, if
  undeclared opcodes have operands of the given widths. `Decode.instruction_readAt` says so of one
  instruction that was read, and `Decode.scan_tiles` of all of them: they stand one behind the
  other (`Tiles`), and one choice of widths fits them all, since a width is never forgotten.
* The second look keeps all of this but the kind of an open operand (`Decode.settleOne_frame`), and
  lets no target pass that is not the start of an instruction (`Decode.targets_settled`).
* `Disassembly` collects what is true of the instructions of a code, and `decoded_tiles` says that
  decoding yields one, in which an instruction is found by its offset.

Nothing is assumed about the length of the code.
-/

namespace OpcodeRecovery

/-- The bytes of an operand: those that its shape fixes, or a count and four for each target. -/
def Operand.size : Operand → ℕ
  | .switch ts => 4 + 4 * ts.length
  | operand => operand.shape.fixedSize?.getD 0

/-! ### Tilings -/

/-- The instructions stand at the same place, take the same space and have the same opcode. -/
structure Instruction.Alike (i j : Instruction) : Prop where
  offset : j.offset = i.offset
  size : j.size = i.size
  opcode : j.opcode = i.opcode

lemma Instruction.Alike.symm {i j : Instruction} (h : i.Alike j) : j.Alike i :=
  ⟨h.offset.symm, h.size.symm, h.opcode.symm⟩

lemma Instruction.Alike.finish {i j : Instruction} (h : i.Alike j) : j.finish = i.finish := by
  rw [Instruction.finish, Instruction.finish, h.offset, h.size]

/-- Instructions that are alike start at the same places. -/
lemma map_offset_eq_of_alike {is js : List Instruction}
    (h : List.Forall₂ Instruction.Alike is js) : is.map (·.offset) = js.map (·.offset) := by
  rw [← List.forall₂_eq_eq_eq, List.forall₂_map_left_iff, List.forall₂_map_right_iff]
  exact h.imp fun _ _ halike => halike.offset.symm

/-- The instructions stand one behind the other and fill the space from one offset to another. -/
inductive Tiles : ℕ → List Instruction → ℕ → Prop where
  | nil (o : ℕ) : Tiles o [] o
  | cons {i : Instruction} {is : List Instruction} {e : ℕ} (hpos : 0 < i.size)
      (h : Tiles i.finish is e) : Tiles i.offset (i :: is) e

namespace Tiles

variable {o e : ℕ} {is : List Instruction}

lemma offset_of_head? (h : Tiles o is e) : ∀ i ∈ is.head?, i.offset = o := by
  cases h with
  | nil o => simp
  | cons hpos h => simp

lemma eq_of_nil (h : Tiles o [] e) : o = e := by
  cases h
  rfl

lemma finish_of_getLast? (h : Tiles o is e) : ∀ i ∈ is.getLast?, i.finish = e := by
  induction h with
  | nil o => simp
  | @cons i is e hpos h ih =>
      cases is with
      | nil => simpa using h.eq_of_nil
      | cons j js => rwa [List.getLast?_cons_cons]

lemma isChain (h : Tiles o is e) : is.IsChain fun i j => j.offset = i.finish := by
  induction h with
  | nil o => exact .nil
  | cons hpos h ih => exact List.isChain_cons.mpr ⟨h.offset_of_head?, ih⟩

lemma le_offset (h : Tiles o is e) : ∀ i ∈ is, o ≤ i.offset := by
  induction h with
  | nil o => simp
  | @cons i is e hpos h ih =>
      intro j hj
      rcases List.mem_cons.mp hj with rfl | hj
      · exact Nat.le_refl _
      · have hle := ih j hj
        rw [Instruction.finish] at hle
        omega

/-- No two instructions start at the same place, and they stand in the order of their starts. -/
lemma pairwise_offset (h : Tiles o is e) : is.Pairwise fun i j => i.offset < j.offset := by
  induction h with
  | nil o => exact .nil
  | cons hpos h ih =>
      refine List.pairwise_cons.mpr ⟨fun j hj => ?_, ih⟩
      have hle := h.le_offset j hj
      rw [Instruction.finish] at hle
      omega

/-- An instruction ends where another one starts, or it is the last one. -/
lemma finish_mem_or_last (h : Tiles o is e) :
    ∀ i ∈ is, i.finish ∈ is.map (·.offset) ∨ is.getLast? = some i := by
  induction h with
  | nil o => simp
  | @cons i is e hpos h ih =>
      intro j hj
      rcases List.mem_cons.mp hj with rfl | hj
      · cases is with
        | nil => exact .inr rfl
        | cons k is =>
            rw [← h.offset_of_head? k rfl]
            exact .inl (List.mem_map_of_mem (List.mem_cons_of_mem _ List.mem_cons_self))
      · refine (ih j hj).imp (List.mem_cons_of_mem _) fun hlast => ?_
        cases is with
        | nil => cases hj
        | cons k is => rwa [List.getLast?_cons_cons]

/-- Instructions that are alike tile the same space. -/
lemma congr {js : List Instruction} (h : Tiles o is e)
    (hjs : List.Forall₂ Instruction.Alike is js) : Tiles o js e := by
  induction h generalizing js with
  | nil o =>
      cases hjs
      exact .nil o
  | @cons i is e hpos h ih =>
      obtain ⟨j, js, halike, hrest, rfl⟩ := List.forall₂_cons_left_iff.mp hjs
      rw [← halike.offset]
      refine .cons (halike.size ▸ hpos) ?_
      rw [halike.finish]
      exact ih hrest

end Tiles

namespace Decode

variable {table : ShapeTable} {widths : UInt8 → Width} {code : Bytes}
  {memory memory' : Width.Memory} {i j : Instruction} {p : Place} {bs : Bytes}

/-! ### Reading one instruction -/

lemma length_of_targets {finish n : ℕ} {ts : List ℕ} (h : targets p finish n bs = .ok ts) :
    ts.length = n := by
  induction n generalizing bs ts with
  | zero =>
      obtain rfl := Except.ok.inj h
      rfl
  | succ n ih =>
      rw [targets] at h
      obtain ⟨t, -, h⟩ := bind_eq_ok_iff.mp h
      obtain ⟨ts', hts, h⟩ := bind_eq_ok_iff.mp h
      obtain rfl := Except.ok.inj h
      rw [List.length_cons, ih hts]

/-- An operand of a declared shape has that shape, and its bytes are there. -/
lemma declaredOperand_size {shape : OperandShape} {operand : Operand} {size : ℕ}
    (h : declaredOperand p bs shape = .ok (operand, size)) :
    operand.shape = shape ∧ size = operand.size ∧ size ≤ bs.length := by
  cases shape with
  | none =>
      obtain ⟨rfl, rfl⟩ := Prod.mk.inj (Except.ok.inj h)
      exact ⟨rfl, rfl, Nat.zero_le _⟩
  | branch =>
      obtain ⟨v, rest, rfl, hlen, hv⟩ := of_operandBytes_bind h
      obtain ⟨t, -, hv⟩ := bind_eq_ok_iff.mp hv
      obtain ⟨rfl, rfl⟩ := Prod.mk.inj (Except.ok.inj hv)
      exact ⟨rfl, rfl, by rw [List.length_append]; omega⟩
  | switch =>
      obtain ⟨count, bs', rfl, hlen, hcount⟩ := of_operandBytes_bind h
      obtain ⟨table, rest, rfl, htlen, htable⟩ := of_operandBytes_bind hcount
      obtain ⟨ts, hts, hmade⟩ := bind_eq_ok_iff.mp htable
      obtain ⟨rfl, rfl⟩ := Prod.mk.inj (Except.ok.inj hmade)
      refine ⟨rfl, by rw [Operand.size, length_of_targets hts], ?_⟩
      rw [List.length_append, List.length_append]
      omega
  | byte | int32 | int64 | token =>
      obtain ⟨v, rest, rfl, hlen, hv⟩ := of_operandBytes_bind h
      obtain ⟨rfl, rfl⟩ := Prod.mk.inj (Except.ok.inj hv)
      exact ⟨rfl, rfl, by rw [List.length_append]; omega⟩

/-- An operand of an inferred width has that width, and its bytes are there. -/
lemma inferredOperand_size {width : Width} {operand : Operand}
    (h : inferredOperand p bs width = .ok operand) :
    operand.size = width.size ∧ width.size ≤ bs.length := by
  obtain ⟨v, rest, rfl, hlen, hv⟩ := of_operandBytes_bind h
  have hfit : width.size ≤ (v ++ rest).length := by
    rw [List.length_append]
    omega
  cases width with
  | zero | one | four | eight =>
      obtain rfl := Except.ok.inj hv
      exact ⟨rfl, hfit⟩

/-- The instruction is what is read at its place of the code, if undeclared opcodes have operands
of the given widths. -/
structure ReadAt (table : ShapeTable) (widths : UInt8 → Width) (code : Bytes) (i : Instruction) :
    Prop where
  opcode : code[i.offset]? = some i.opcode
  size : i.size = 1 + i.operand.size
  fits : i.finish ≤ code.length
  declared : ∀ shape, table.get? i.opcode = some shape →
    i.source = .declared ∧ i.operand.shape = shape
  inferred : table.get? i.opcode = none → i.source = .inferred
    ∧ inferredOperand ⟨i.opcode, i.offset, code.length⟩ (code.drop (i.offset + 1))
      (widths i.opcode) = .ok i.operand

/-- The widths are those remembered, wherever one is. -/
def Recalls (memory : Width.Memory) (widths : UInt8 → Width) : Prop :=
  ∀ opcode width, memory.lookup opcode = some width → widths opcode = width

lemma recalls_lookup (memory : Width.Memory) :
    Recalls memory fun opcode => (memory.lookup opcode).getD .zero := by
  intro opcode width hw
  simp only [hw, Option.getD_some]

/-- What is remembered before an instruction is remembered behind it. -/
lemma lookup_of_instruction (h : instruction table memory p bs = .ok (i, memory'))
    {opcode : UInt8} {width : Width} (hw : memory.lookup opcode = some width) :
    memory'.lookup opcode = some width := by
  rcases instruction_cases h with ⟨-, -, -, -, -, -, rfl⟩
    | ⟨-, -, -, ⟨-, rfl⟩ | ⟨hnone, -, rfl⟩, -, -⟩
  · exact hw
  · exact hw
  · have hne : (opcode == p.opcode) = false := by
      refine beq_false_of_ne ?_
      rintro rfl
      rw [hnone] at hw
      cases hw
    rw [List.lookup_cons, hne]
    exact hw

/-- An instruction that was read at a place is what is read there, with all widths that are in
keeping with the memory behind it. -/
lemma instruction_readAt {opcode : UInt8} {o : ℕ} (hopcode : code[o]? = some opcode)
    (h : instruction table memory ⟨opcode, o, code.length⟩ (code.drop (o + 1)) = .ok (i, memory')) :
    i.offset = o ∧ ∀ widths, Recalls memory' widths → ReadAt table widths code i := by
  have hlt : o < code.length := (List.getElem?_eq_some_iff.mp hopcode).1
  rcases instruction_cases h with ⟨shape, operand, size, hshape, hread, rfl, -⟩
    | ⟨width, operand, hnone, hmemory, hread, rfl⟩
  · obtain ⟨hoperand, rfl, hfit⟩ := declaredOperand_size hread
    rw [List.length_drop] at hfit
    refine ⟨rfl, fun widths _ => ⟨hopcode, rfl, ?_, ?_, ?_⟩⟩
    · simp only [Instruction.finish]
      omega
    · intro shape' hshape'
      exact ⟨rfl, hoperand.trans (Option.some.inj (hshape.symm.trans hshape'))⟩
    · intro hnone
      cases hshape.symm.trans hnone
  · obtain ⟨hsize, hfit⟩ := inferredOperand_size hread
    rw [List.length_drop] at hfit
    have hrecalled : memory'.lookup opcode = some width := by
      rcases hmemory with ⟨hw, rfl⟩ | ⟨-, -, rfl⟩
      · exact hw
      · exact List.lookup_cons_self
    refine ⟨rfl, fun widths hwidths => ⟨hopcode, by rw [hsize], ?_, ?_, ?_⟩⟩
    · simp only [Instruction.finish]
      omega
    · intro shape hshape
      cases hnone.symm.trans hshape
    · intro _
      rw [hwidths opcode width hrecalled]
      exact ⟨rfl, hread⟩

/-! ### Reading all instructions -/

/-- **The linear pass** reads instructions that tile the code from where it starts, all of them with
one choice of widths, which keeps to what was remembered. -/
lemma scan_tiles {o : ℕ} {is : List Instruction} (ho : o ≤ code.length)
    (h : scan table code.length memory o (code.drop o) = .ok is) :
    Tiles o is code.length
      ∧ ∃ widths, Recalls memory widths ∧ ∀ i ∈ is, ReadAt table widths code i := by
  induction is generalizing memory o with
  | nil =>
      rcases Nat.lt_or_eq_of_le ho with hlt | rfl
      · rw [List.drop_eq_getElem_cons hlt, scan] at h
        obtain ⟨⟨i, memory'⟩, -, h⟩ := bind_eq_ok_iff.mp h
        obtain ⟨is, -, h⟩ := bind_eq_ok_iff.mp h
        cases h
      · exact ⟨.nil _, _, recalls_lookup memory, by simp⟩
  | cons i is ih =>
      rcases Nat.lt_or_eq_of_le ho with hlt | rfl
      · rw [List.drop_eq_getElem_cons hlt, scan] at h
        obtain ⟨⟨j, memory'⟩, hread, h⟩ := bind_eq_ok_iff.mp h
        obtain ⟨js, hscan, h⟩ := bind_eq_ok_iff.mp h
        obtain ⟨rfl, rfl⟩ := List.cons.inj (Except.ok.inj h)
        obtain ⟨rfl, hreadAt⟩ := instruction_readAt (List.getElem?_eq_getElem hlt) hread
        -- whatever the widths turn out to be, the instruction takes at least its opcode
        have hbounds : 0 < j.size ∧ j.finish ≤ code.length := by
          obtain ⟨-, hsize, hfits, -, -⟩ := hreadAt _ (recalls_lookup memory')
          exact ⟨by omega, hfits⟩
        have hrest : (code.drop (j.offset + 1)).drop (j.size - 1) = code.drop j.finish := by
          rw [List.drop_drop, Instruction.finish]
          congr 1
          omega
        rw [hrest] at hscan
        obtain ⟨htiles, widths, hwidths, hall⟩ := ih hbounds.2 hscan
        refine ⟨.cons hbounds.1 htiles, widths, ?_, ?_⟩
        · intro opcode width hw
          exact hwidths opcode width (lookup_of_instruction hread hw)
        · exact List.forall_mem_cons.mpr ⟨hreadAt widths hwidths, hall⟩
      · rw [List.drop_length, scan] at h
        cases h

/-! ### The second look -/

variable {starts : OffsetSet} {verdicts : Ledger UInt8 Landings}

/-- A number leads to a start exactly if it counts the way there. -/
lemma boundaryTarget?_eq_some_iff {finish t : ℕ} {v : Int32} :
    boundaryTarget? starts finish v = some t
      ↔ (t : ℤ) = finish + v.toInt ∧ starts.contains t = true := by
  rw [boundaryTarget?]
  split_ifs with h
  · rw [Option.some.injEq]
    constructor
    · rintro rfl
      exact ⟨by omega, h.2⟩
    · rintro ⟨ht, -⟩
      omega
  · refine ⟨by simp, ?_⟩
    rintro ⟨ht, hcontains⟩
    refine absurd ⟨by omega, ?_⟩ h
    rwa [← ht, Int.toNat_natCast]

lemma size_classify (starts : OffsetSet) (finish : ℕ) (isBranch : Bool) (v : Int32) :
    (classify starts finish isBranch v).size = 4 := by
  rcases classify_cases starts finish isBranch v with ⟨t, -, h⟩ | h | h <;> rw [h] <;> rfl

/-- The second look changes nothing of an instruction but what an open operand is taken for, and
nothing at all of a declared one. -/
lemma settleOne_frame (h : settleOne starts verdicts i = .ok j) :
    i.Alike j ∧ j.source = i.source ∧ j.operand.size = i.operand.size
      ∧ (i.source = .declared → j = i) := by
  rcases settleOne_cases h with ⟨v, isBranch, hopen, rfl⟩ | ⟨-, rfl, -⟩
  · obtain ⟨hsource, hoperand⟩ := openOperand?_eq_some_iff.mp hopen
    refine ⟨⟨rfl, rfl, rfl⟩, rfl, ?_, fun hdeclared => ?_⟩
    · rw [size_classify, hoperand]
      rfl
    · cases hsource.symm.trans hdeclared
  · exact ⟨⟨rfl, rfl, rfl⟩, rfl, rfl, fun _ => rfl⟩

/-- A target that passes the second look is a start. -/
lemma targets_settled (hread : ReadAt table widths code i)
    (h : settleOne starts verdicts i = .ok j) : ∀ t ∈ j.targets, starts.contains t = true := by
  rcases settleOne_cases h with ⟨v, isBranch, -, rfl⟩ | ⟨-, rfl, hdeclared⟩
  · simp only [Instruction.targets]
    rcases classify_cases starts i.finish isBranch v with ⟨t, ht, hbranch⟩ | hplain | hplain
    · rw [hbranch]
      intro t' ht'
      rw [List.mem_singleton.mp ht']
      exact (boundaryTarget?_eq_some_iff.mp ht).2
    · simp [hplain, Operand.targets]
    · simp [hplain, Operand.targets]
  · cases hshape : table.get? j.opcode with
    | some shape => exact hdeclared (hread.declared shape hshape).1
    | none =>
        have hnone : j.targets = [] := (inferredOperand_bytes (hread.inferred hshape).2).1
        simp [hnone]

/-- The starts of some instructions, as the second look knows them. -/
def startsOf (code : Bytes) (is : List Instruction) : OffsetSet :=
  .ofList code.length (is.map (·.offset))

/-- Every instruction starts in the code, so all starts are known. -/
lemma contains_startsOf {is : List Instruction} (hread : ∀ i ∈ is, ReadAt table widths code i)
    {t : ℕ} : (startsOf code is).contains t = true ↔ t ∈ is.map (·.offset) := by
  rw [startsOf, OffsetSet.contains_ofList, and_iff_left_iff_imp]
  intro ht
  obtain ⟨i, hi, rfl⟩ := List.mem_map.mp ht
  exact (List.getElem?_eq_some_iff.mp (hread i hi).opcode).1

/-- The instructions pass the second look as the others. -/
def Settled (code : Bytes) : List Instruction → List Instruction → Prop :=
  fun is => List.Forall₂
    (fun i j => settleOne (startsOf code is) (landings (startsOf code is) is) i = .ok j) is

/-- What decoding does: it reads instructions that tile the code, and takes a second look. -/
lemma exists_settled {js : List Instruction} (h : decodeCode table code = .ok js) :
    ∃ is widths, Tiles 0 is code.length ∧ (∀ i ∈ is, ReadAt table widths code i)
      ∧ Settled code is js := by
  obtain ⟨is, hscan, hsettle⟩ := bind_eq_ok_iff.mp h
  obtain ⟨htiles, widths, -, hread⟩ := scan_tiles (Nat.zero_le _) hscan
  exact ⟨is, widths, htiles, hread, mapM_eq_ok_iff.mp hsettle⟩

namespace Settled

variable {is js : List Instruction}

lemma alike (h : Settled code is js) : List.Forall₂ Instruction.Alike is js :=
  h.imp fun _ _ hone => (settleOne_frame hone).1

lemma map_offset (h : Settled code is js) : is.map (·.offset) = js.map (·.offset) :=
  map_offset_eq_of_alike h.alike

end Settled

end Decode

/-! ### Disassemblies -/

/-- What is true of the instructions of a code. They fill it from its start to its end, each one
from where the one before it ends; each has the size of its operand behind the opcode that stands
at its offset. Declared opcodes have operands of their shapes, and every other opcode has operands
of one size. Every target is the start of an instruction. -/
structure Disassembly (table : ShapeTable) (code : Bytes) (is : List Instruction) : Prop where
  whole : is = [] → code = []
  first : ∀ i ∈ is.head?, i.offset = 0
  adjacent : is.IsChain fun i j => j.offset = i.finish
  last : ∀ i ∈ is.getLast?, i.finish = code.length
  opcode : ∀ i ∈ is, code[i.offset]? = some i.opcode
  size : ∀ i ∈ is, i.size = 1 + i.operand.size
  declared : ∀ i ∈ is, ∀ shape, table.get? i.opcode = some shape →
    i.source = .declared ∧ i.shape = shape
  inferred : ∀ i ∈ is, table.get? i.opcode = none →
    i.source = .inferred ∧ ∀ j ∈ is, j.opcode = i.opcode → j.size = i.size
  landed : ∀ i ∈ is, ∀ t ∈ i.targets, t ∈ is.map (·.offset)

namespace Decode

variable {table : ShapeTable} {widths : UInt8 → Width} {code : Bytes} {i j : Instruction}
  {starts : OffsetSet} {verdicts : Ledger UInt8 Landings}

/-- An instruction of an undeclared opcode has the size that the width of the opcode gives it. -/
lemma ReadAt.size_of_undeclared (h : ReadAt table widths code i)
    (hnone : table.get? i.opcode = none) : i.size = 1 + (widths i.opcode).size := by
  rw [h.size, (inferredOperand_size (h.inferred hnone).2).1]

/-- Instructions that are read one behind the other and pass the second look are a disassembly. -/
lemma Settled.disassembly {is js : List Instruction} (htiles : Tiles 0 is code.length)
    (hread : ∀ i ∈ is, ReadAt table widths code i) (h : Settled code is js) :
    Disassembly table code js := by
  have hsource : ∀ j ∈ js, ∃ i, ReadAt table widths code i
      ∧ settleOne (startsOf code is) (landings (startsOf code is) is) i = .ok j := by
    intro j hj
    obtain ⟨i, hi, hone⟩ := exists_mem_of_forall₂ h hj
    exact ⟨i, hread i hi, hone⟩
  have hundeclared : ∀ j ∈ js, table.get? j.opcode = none →
      j.source = .inferred ∧ j.size = 1 + (widths j.opcode).size := by
    intro j hj hnone
    obtain ⟨i, hi, hone⟩ := hsource j hj
    obtain ⟨halike, hsource, -, -⟩ := settleOne_frame hone
    rw [halike.opcode] at hnone
    rw [hsource, halike.size, halike.opcode]
    exact ⟨(hi.inferred hnone).1, hi.size_of_undeclared hnone⟩
  have htiles' := htiles.congr h.alike
  refine ⟨?_, htiles'.offset_of_head?, htiles'.isChain, htiles'.finish_of_getLast?, ?_, ?_, ?_, ?_,
    ?_⟩
  · rintro rfl
    exact List.eq_nil_of_length_eq_zero htiles'.eq_of_nil.symm
  · intro j hj
    obtain ⟨i, hi, hone⟩ := hsource j hj
    obtain ⟨halike, -⟩ := settleOne_frame hone
    rw [halike.offset, halike.opcode, hi.opcode]
  · intro j hj
    obtain ⟨i, hi, hone⟩ := hsource j hj
    obtain ⟨halike, -, hoperand, -⟩ := settleOne_frame hone
    rw [halike.size, hoperand, hi.size]
  · intro j hj shape hshape
    obtain ⟨i, hi, hone⟩ := hsource j hj
    obtain ⟨halike, -, -, hsame⟩ := settleOne_frame hone
    rw [halike.opcode] at hshape
    obtain ⟨hdeclared, hoperand⟩ := hi.declared shape hshape
    obtain rfl := hsame hdeclared
    exact ⟨hdeclared, hoperand⟩
  · intro j hj hnone
    refine ⟨(hundeclared j hj hnone).1, fun k hk hopcode => ?_⟩
    rw [(hundeclared j hj hnone).2, (hundeclared k hk (hopcode ▸ hnone)).2, hopcode]
  · intro j hj t ht
    obtain ⟨i, hi, hone⟩ := hsource j hj
    rw [← h.map_offset, ← contains_startsOf hread]
    exact targets_settled hi hone t ht

end Decode

/-- The instructions of a tiling are found by their offsets. -/
lemma Tiles.indexOf?_eq_some_iff {o e : ℕ} {is : List Instruction} (h : Tiles o is e)
    (key : MethodKey) (codeSize : ℕ) (regions : List Region) {offset n : ℕ} :
    (Method.ofParts key codeSize is regions).indexOf? offset = some n
      ↔ ∃ i, is[n]? = some i ∧ i.offset = offset := by
  have hsearch : bisect (·.offset) is.toArray offset = some n
      ↔ ∃ i, is.toArray[n]? = some i ∧ i.offset = offset := bisect_eq_some_iff h.pairwise_offset
  rwa [List.getElem?_toArray] at hsearch

/-- **Decoded instructions tile the code**: whatever code is decoded, with whatever table, the
result is a disassembly of it. So are the instructions of a decoded method, for the code that stands
behind its regions; and the search for an offset finds the instruction that starts there. -/
theorem decoded_tiles (table : ShapeTable) :
    (∀ code is, decodeCode table code = .ok is → Disassembly table code is)
    ∧ ∀ stream m, decodeMethod table stream = .ok m →
      (∃ records code, Decode.splitStream stream.data = .ok (records, code)
        ∧ m.codeSize = code.length ∧ Disassembly table code m.instructions.toList)
      ∧ ∀ offset n, m.indexOf? offset = some n
        ↔ ∃ i, m.instructions[n]? = some i ∧ i.offset = offset := by
  have hcode : ∀ code is, decodeCode table code = .ok is →
      Tiles 0 is code.length ∧ Disassembly table code is := by
    intro code is h
    obtain ⟨is₀, widths, htiles, hread, hsettled⟩ := Decode.exists_settled h
    exact ⟨htiles.congr hsettled.alike, hsettled.disassembly htiles hread⟩
  refine ⟨fun code is h => (hcode code is h).2, fun stream m h => ?_⟩
  obtain ⟨code, regions, is, hsplit, -, his, rfl⟩ := decodeMethod_eq_ok_iff.mp h
  obtain ⟨htiles, hdis⟩ := hcode code is his
  refine ⟨⟨_, code, hsplit, rfl, hdis⟩, fun offset n => ?_⟩
  rw [htiles.indexOf?_eq_some_iff]
  simp only [Method.ofParts, List.getElem?_toArray]

/-- A switch over two places, and an undeclared opcode whose operand leads back to the start at
first, and nowhere behind the last instruction. -/
def loopCode : Bytes :=
  [0x40, 2, 0, 0, 0, 0, 0, 0, 0, 5, 0, 0, 0] ++ [0x50, 0xEE, 0xFF, 0xFF, 0xFF] ++ [0x02]
    ++ [0x50, 0, 0, 0, 0]

/-- The shapes that are declared for the loop. -/
def loopTable : ShapeTable := (ShapeTable.default.declare 0x40 .switch).declare 0x02 .none

/-- What the loop is decoded as. -/
def loopListing : List Instruction :=
  [⟨0, 13, 0x40, .switch [13, 18], .declared⟩, ⟨13, 5, 0x50, .branch 0, .inferred⟩,
    ⟨18, 1, 0x02, .none, .declared⟩, ⟨19, 5, 0x50, .int32 0, .inferred⟩]

theorem decoded_tiles_loop :
    decodeCode loopTable loopCode = .ok loopListing ∧ Disassembly loopTable loopCode loopListing
      ∧ decodeMethod loopTable ⟨⟨⟨0x06000001⟩, 7⟩, 0 :: loopCode⟩
        = .ok (Method.ofParts ⟨⟨0x06000001⟩, 7⟩ 24 loopListing [])
      ∧ ∀ offset n,
        (Method.ofParts ⟨⟨0x06000001⟩, 7⟩ 24 loopListing []).indexOf? offset = some n
          ↔ ∃ i, loopListing[n]? = some i ∧ i.offset = offset := by
  have hcode : decodeCode loopTable loopCode = .ok loopListing := by decide +kernel
  have hmethod : decodeMethod loopTable ⟨⟨⟨0x06000001⟩, 7⟩, 0 :: loopCode⟩
      = .ok (Method.ofParts ⟨⟨0x06000001⟩, 7⟩ 24 loopListing []) := by decide +kernel
  have hindex := ((decoded_tiles loopTable).2 _ _ hmethod).2
  simp only [Method.ofParts, List.getElem?_toArray] at hindex
  exact ⟨hcode, (decoded_tiles loopTable).1 _ _ hcode, hmethod, hindex⟩

end OpcodeRecovery
