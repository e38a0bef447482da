import Mathlib.Tactic
import OpcodeRecovery.Proofs.Code.OffsetSet
import OpcodeRecovery.Proofs.Code.Operand

/-!
Code as the spelling of its instructions.

* `Spells o is bs`: the instructions stand one behind the other from `o` on, and `bs` is what
  they are written as.
* `decodeCode_spells`: whatever is decoded spells the code. The linear pass does
  (`Decode.scan_spells`), and the second look changes what an operand is called but not how it
  is written (`Decode.settle_spells`).
* `Spells.decodeCode_eq`: a short code that is spelled by declared instructions is decoded as
  these, if every target is the start of one of them.
* `Spells.emitAll_eq`: assembling the instructions writes the code.
-/

namespace OpcodeRecovery

/-! ### Spellings -/

/-- The bytes of an instruction where it stands. -/
def Instruction.bytes (i : Instruction) : Bytes :=
  i.opcode :: Assembly.operandBytes i.offset i.operand

/-- The instructions stand one behind the other from an offset on and are written as the given
bytes. -/
inductive Spells : ℕ → List Instruction → Bytes → Prop where
  | nil (o : ℕ) : Spells o [] []
  | cons {i : Instruction} {is : List Instruction} {rest : Bytes}
      (hsize : i.bytes.length = i.size) (h : Spells i.finish is rest) :
      Spells i.offset (i :: is) (i.bytes ++ rest)

namespace Spells

variable {o : ℕ} {is : List Instruction} {bs : Bytes}

/-- Every instruction starts inside the code. -/
lemma offset_lt (h : Spells o is bs) : ∀ i ∈ is, i.offset < o + bs.length := by
  induction h with
  | nil o =>
      intro i hi
      cases hi
  | @cons i is rest hsize _ ih =>
      have hpos : 0 < i.bytes.length := Nat.succ_pos _
      intro j hj
      rw [List.length_append]
      rcases List.mem_cons.mp hj with rfl | hj
      · omega
      · have hlt := ih j hj
        rw [Instruction.finish] at hlt
        omega

end Spells

namespace Decode

open Assembly (signedBytes relative)

variable {table : ShapeTable} {memory memory' : Width.Memory} {p : Place} {bs : Bytes}
  {i : Instruction}

/-! ### The linear pass -/

/-- What reading one instruction can do: read an operand of the declared shape, or one of the
width remembered or else inferred for the opcode. -/
lemma instruction_cases (h : instruction table memory p bs = .ok (i, memory')) :
    (∃ shape operand size, table.get? p.opcode = some shape
        ∧ declaredOperand p bs shape = .ok (operand, size)
        ∧ i = ⟨p.offset, 1 + size, p.opcode, operand, .declared⟩ ∧ memory' = memory)
      ∨ ∃ width operand, table.get? p.opcode = none
        ∧ (memory.lookup p.opcode = some width ∧ memory' = memory
          ∨ memory.lookup p.opcode = none ∧ width = Width.infer table memory bs
            ∧ memory' = (p.opcode, width) :: memory)
        ∧ inferredOperand p bs width = .ok operand
        ∧ i = ⟨p.offset, 1 + width.size, p.opcode, operand, .inferred⟩ := by
  rw [instruction] at h
  cases hshape : table.get? p.opcode with
  | some shape =>
      rw [hshape] at h
      obtain ⟨⟨operand, size⟩, hread, h⟩ := bind_eq_ok_iff.mp h
      obtain ⟨rfl, rfl⟩ := Prod.mk.inj (Except.ok.inj h)
      exact .inl ⟨shape, operand, size, rfl, hread, rfl, rfl⟩
  | none =>
      rw [hshape] at h
      cases hwidth : memory.lookup p.opcode with
      | some width =>
          rw [hwidth] at h
          obtain ⟨operand, hread, h⟩ := bind_eq_ok_iff.mp h
          obtain ⟨rfl, rfl⟩ := Prod.mk.inj (Except.ok.inj h)
          exact .inr ⟨width, operand, rfl, .inl ⟨rfl, rfl⟩, hread, rfl⟩
      | none =>
          rw [hwidth] at h
          obtain ⟨operand, hread, h⟩ := bind_eq_ok_iff.mp h
          obtain ⟨rfl, rfl⟩ := Prod.mk.inj (Except.ok.inj h)
          exact .inr ⟨_, operand, rfl, .inr ⟨rfl, rfl, rfl⟩, hread, rfl⟩

/-- An instruction that was read stands where it was read and is written as the bytes that it
was read from. -/
lemma instruction_bytes (hcode : p.codeSize ≤ 2 ^ 63)
    (h : instruction table memory p bs = .ok (i, memory')) :
    i.offset = p.offset ∧ i.bytes.length = i.size
      ∧ ∃ rest, p.opcode :: bs = i.bytes ++ rest := by
  rcases instruction_cases h with
    ⟨shape, operand, size, -, hread, rfl, -⟩ | ⟨width, operand, -, -, hread, rfl⟩
  · obtain ⟨-, hlen, rest, rfl⟩ := declaredOperand_bytes hcode hread
    exact ⟨rfl, by rw [Instruction.bytes, List.length_cons, hlen, Nat.add_comm], rest, rfl⟩
  · obtain ⟨-, hlen, rest, rfl⟩ := inferredOperand_bytes hread
    exact ⟨rfl, by rw [Instruction.bytes, List.length_cons, hlen, Nat.add_comm], rest, rfl⟩

/-- The linear pass spells what it reads. -/
lemma scan_spells {codeSize o : ℕ} {is : List Instruction} (hcode : codeSize ≤ 2 ^ 63)
    (h : scan table codeSize memory o bs = .ok is) : Spells o is bs := by
  induction is generalizing memory o bs with
  | nil =>
      cases bs with
      | nil => exact .nil o
      | cons opcode rest =>
          rw [scan] at h
          obtain ⟨⟨i, memory'⟩, -, h⟩ := bind_eq_ok_iff.mp h
          obtain ⟨is, -, h⟩ := bind_eq_ok_iff.mp h
          cases h
  | cons j js ih =>
      cases bs with
      | nil => cases h.symm.trans (by rw [scan])
      | cons opcode rest =>
          rw [scan] at h
          obtain ⟨⟨i, memory'⟩, hread, h⟩ := bind_eq_ok_iff.mp h
          obtain ⟨is, hscan, h⟩ := bind_eq_ok_iff.mp h
          obtain ⟨rfl, rfl⟩ := List.cons.inj (Except.ok.inj h)
          obtain ⟨rfl, hlen, rest', hbytes⟩ := instruction_bytes hcode hread
          -- what is left to scan is what stands behind the bytes of the instruction
          have hpos : i.size = (i.size - 1) + 1 := by
            rw [← hlen, Instruction.bytes, List.length_cons, Nat.add_sub_cancel]
          have hrest : rest.drop (i.size - 1) = rest' := by
            rw [← List.drop_succ_cons, ← hpos, hbytes, List.drop_left' hlen]
          rw [hrest] at hscan
          rw [hbytes]
          exact .cons hlen (ih hscan)

/-! ### The second look -/

variable {starts : OffsetSet} {verdicts : Ledger UInt8 Landings} {j : Instruction}

/-- A token and a number of the same 32 bits are written alike. -/
lemma ofNatLE_toUInt32 (v : Int32) :
    Bytes.ofNatLE 4 v.toUInt32.toNat = signedBytes 4 v.toInt := by
  have hbits : v.toInt % (2 ^ 32 : ℕ) = v.toUInt32.toNat := by
    rw [← Int32.toInt_toBitVec, BitVec.toInt_eq_toNat_bmod, Int.bmod_emod, Int32.toNat_toBitVec]
    exact Int.emod_eq_of_lt (by omega) (by exact_mod_cast v.toUInt32.toNat_lt)
  rw [signedBytes, show Bytes.capacity 4 = 2 ^ 32 from rfl, hbits, Int.toNat_natCast]

/-- The start of an instruction that a number leads to is counted as that number. -/
lemma relative_of_boundaryTarget? {finish t : ℕ} {v : Int32} (hbound : starts.bound ≤ 2 ^ 63)
    (h : boundaryTarget? starts finish v = some t) : relative finish t = v.toInt := by
  have hlo := v.le_toInt
  have hhi := v.toInt_lt
  rw [boundaryTarget?] at h
  split_ifs at h with hcond
  obtain rfl := Option.some.inj h
  have hlt := OffsetSet.lt_of_contains hcond.2
  rw [Assembly.relative_eq (by omega) (by omega) (by omega)]
  omega

/-- What a four-byte operand can be taken for. -/
lemma classify_cases (starts : OffsetSet) (finish : ℕ) (isBranch : Bool) (v : Int32) :
    (∃ t, boundaryTarget? starts finish v = some t
        ∧ classify starts finish isBranch v = .branch t)
      ∨ classify starts finish isBranch v = .token ⟨v.toUInt32⟩
      ∨ classify starts finish isBranch v = .int32 v := by
  cases isBranch with
  | false => by_cases h : (Token.mk v.toUInt32).isPlausibleReference <;> simp [classify, h]
  | true =>
      cases ht : boundaryTarget? starts finish v with
      | some t => simp [classify, ht]
      | none => by_cases h : (Token.mk v.toUInt32).isPlausibleReference <;> simp [classify, ht, h]

/-- Whatever a four-byte operand is taken for, it is written as before. -/
lemma operandBytes_classify {o : ℕ} (hbound : starts.bound ≤ 2 ^ 63) (isBranch : Bool) (v : Int32) :
    Assembly.operandBytes o (classify starts (o + 5) isBranch v) = signedBytes 4 v.toInt := by
  rcases classify_cases starts (o + 5) isBranch v with ⟨t, ht, h⟩ | h | h
  · rw [h, Assembly.operandBytes, relative_of_boundaryTarget? hbound ht]
  · rw [h, Assembly.operandBytes, ofNatLE_toUInt32]
  · rw [h, Assembly.operandBytes]

lemma openOperand?_eq_some_iff {v : Int32} :
    openOperand? i = some v ↔ i.source = .inferred ∧ i.operand = .int32 v := by
  rw [openOperand?]
  split <;> simp_all

/-- What the second look can do to an instruction: classify an open operand, or leave the
instruction as it is, after a look at its targets. -/
lemma settleOne_cases (h : settleOne starts verdicts i = .ok j) :
    (∃ v isBranch, openOperand? i = some v
        ∧ j = ⟨i.offset, i.size, i.opcode, classify starts i.finish isBranch v, i.source⟩)
      ∨ openOperand? i = none ∧ j = i
        ∧ (i.source = .declared → ∀ t ∈ i.targets, starts.contains t = true) := by
  rw [settleOne] at h
  cases hopen : openOperand? i with
  | some v =>
      rw [hopen] at h
      exact .inl ⟨v, _, rfl, (Except.ok.inj h).symm⟩
  | none =>
      rw [hopen] at h
      refine .inr ⟨rfl, ?_⟩
      dsimp only at h
      split_ifs at h with hsource
      · exact ⟨(Except.ok.inj h).symm, fun hd => by rw [hd] at hsource; cases hsource⟩
      · cases hfind : i.targets.find? (!starts.contains ·) with
        | some t =>
            rw [hfind] at h
            cases h
        | none =>
            rw [hfind] at h
            refine ⟨(Except.ok.inj h).symm, fun _ t ht => ?_⟩
            simpa using List.find?_eq_none.mp hfind t ht

/-- The second look keeps where an instruction stands and how it is written. -/
lemma settleOne_bytes (hbound : starts.bound ≤ 2 ^ 63) (hsize : i.bytes.length = i.size)
    (h : settleOne starts verdicts i = .ok j) :
    j.offset = i.offset ∧ j.size = i.size ∧ j.bytes = i.bytes := by
  rcases settleOne_cases h with ⟨v, isBranch, hopen, rfl⟩ | ⟨-, rfl, -⟩
  · obtain ⟨-, hoperand⟩ := openOperand?_eq_some_iff.mp hopen
    refine ⟨rfl, rfl, ?_⟩
    have hfinish : i.finish = i.offset + 5 := by
      rw [Instruction.finish, ← hsize, Instruction.bytes, hoperand, List.length_cons,
        Assembly.operandBytes, Assembly.length_signedBytes]
    rw [Instruction.bytes, Instruction.bytes, hfinish, operandBytes_classify hbound, hoperand,
      Assembly.operandBytes]
  · exact ⟨rfl, rfl, rfl⟩

/-- The second look keeps the spelling. -/
lemma spells_of_settled {o : ℕ} {is js : List Instruction} (hbound : starts.bound ≤ 2 ^ 63)
    (hspells : Spells o is bs)
    (h : List.Forall₂ (fun i j => settleOne starts verdicts i = .ok j) is js) :
    Spells o js bs := by
  induction hspells generalizing js with
  | nil o =>
      cases h
      exact .nil o
  | @cons i is rest hsize _ ih =>
      obtain ⟨j, js, hone, hmany, rfl⟩ := List.forall₂_cons_left_iff.mp h
      obtain ⟨hoffset, hsize', hbytes⟩ := settleOne_bytes hbound hsize hone
      have hfinish : j.finish = i.finish := by
        rw [Instruction.finish, Instruction.finish, hoffset, hsize']
      rw [← hoffset, ← hbytes]
      refine .cons (by rw [hbytes, hsize', hsize]) ?_
      rw [hfinish]
      exact ih hmany

lemma settle_spells {codeSize o : ℕ} {is js : List Instruction} (hcode : codeSize ≤ 2 ^ 63)
    (hspells : Spells o is bs) (h : settle codeSize is = .ok js) : Spells o js bs := by
  refine spells_of_settled ?_ hspells (mapM_eq_ok_iff.mp h)
  rw [OffsetSet.bound_ofList]
  exact hcode

end Decode

/-- **Decoding loses nothing of the code**: the instructions stand one behind the other from the
start on, and are written as the code. -/
theorem decodeCode_spells {table : ShapeTable} {code : Bytes} {is : List Instruction}
    (hcode : code.length ≤ 2 ^ 63) (h : decodeCode table code = .ok is) : Spells 0 is code := by
  obtain ⟨js, hscan, hsettle⟩ := bind_eq_ok_iff.mp h
  exact Decode.settle_spells hcode (Decode.scan_spells hcode hscan) hsettle

/-! ### Declared instructions -/

/-- An instruction as the table would have it read: its shape is the one declared. -/
structure ShapeTable.Declares (table : ShapeTable) (i : Instruction) : Prop where
  source : i.source = .declared
  shape : table.get? i.opcode = some i.operand.shape

namespace Decode

/-- A declared instruction is read back from its bytes, in front of anything. -/
lemma instruction_of_declares {table : ShapeTable} {i : Instruction} {codeSize : ℕ}
    (memory : Width.Memory) (rest : Bytes) (hi : table.Declares i)
    (hsize : i.bytes.length = i.size) (hcode : codeSize < 2 ^ 31) (hfit : i.finish ≤ codeSize)
    (htargets : ∀ t ∈ i.targets, t < codeSize) :
    instruction table memory ⟨i.opcode, i.offset, codeSize⟩
      (Assembly.operandBytes i.offset i.operand ++ rest) = .ok (i, memory) := by
  obtain ⟨offset, size, opcode, operand, source⟩ := i
  obtain ⟨rfl, hshape⟩ := hi
  simp only [Instruction.bytes, List.length_cons, Instruction.finish] at hsize hfit
  have hread := declaredOperand_append (p := ⟨opcode, offset, codeSize⟩) rest hcode
    (by dsimp only; omega) htargets
  simp only [instruction, hshape, hread, ok_bind, pure_eq_ok]
  rw [Nat.add_comm, hsize]

/-- The linear pass reads declared instructions back from their bytes. -/
lemma scan_of_spells {table : ShapeTable} {codeSize o : ℕ} {is : List Instruction} {bs : Bytes}
    (memory : Width.Memory) (hspells : Spells o is bs) (hcode : codeSize < 2 ^ 31)
    (hfit : o + bs.length ≤ codeSize) (hdecl : ∀ i ∈ is, table.Declares i)
    (htargets : ∀ i ∈ is, ∀ t ∈ i.targets, t < codeSize) :
    scan table codeSize memory o bs = .ok is := by
  induction hspells with
  | nil o => rw [scan]
  | @cons i is rest hsize _ ih =>
      rw [List.length_append] at hfit
      have hfinish : i.finish = i.offset + i.bytes.length := by rw [Instruction.finish, hsize]
      have hread := instruction_of_declares memory rest (hdecl i List.mem_cons_self) hsize hcode
        (by omega) (htargets i List.mem_cons_self)
      have hoperand : (Assembly.operandBytes i.offset i.operand).length = i.size - 1 := by
        rw [← hsize, Instruction.bytes, List.length_cons, Nat.add_sub_cancel]
      have hrest := ih (by omega) (fun j hj => hdecl j (List.mem_cons_of_mem i hj))
        (fun j hj => htargets j (List.mem_cons_of_mem i hj))
      rw [Instruction.bytes, List.cons_append, scan, hread, ok_bind]
      dsimp only
      rw [List.drop_left' hoperand, hrest, ok_bind, pure_eq_ok]

/-- The second look leaves declared instructions alone whose targets are starts. -/
lemma settleOne_of_declared {starts : OffsetSet} (verdicts : Ledger UInt8 Landings)
    {i : Instruction} (hsource : i.source = .declared)
    (htargets : ∀ t ∈ i.targets, starts.contains t = true) :
    settleOne starts verdicts i = .ok i := by
  have hopen : openOperand? i = none := by rw [openOperand?, hsource]
  have hfind : i.targets.find? (!starts.contains ·) = none := by
    rw [List.find?_eq_none]
    intro t ht
    simp [htargets t ht]
  simp only [settleOne, hopen, hsource, reduceCtorEq, if_false, hfind]

/-- The second look leaves declared code alone if every target is the start of an instruction. -/
lemma settle_of_declared {codeSize : ℕ} {is : List Instruction}
    (hsource : ∀ i ∈ is, i.source = .declared) (hstarts : ∀ t ∈ is.map (·.offset), t < codeSize)
    (htargets : ∀ i ∈ is, ∀ t ∈ i.targets, t ∈ is.map (·.offset)) :
    settle codeSize is = .ok is := by
  rw [settle, mapM_eq_ok_iff, List.forall₂_same]
  intro i hi
  refine settleOne_of_declared _ (hsource i hi) fun t ht => ?_
  exact (OffsetSet.contains_ofList _ _ t).mpr ⟨htargets i hi t ht, hstarts t (htargets i hi t ht)⟩

end Decode

/-- **Declared code is decoded as it was spelled**, if it is short and every target is the start
of an instruction. -/
theorem Spells.decodeCode_eq {table : ShapeTable} {code : Bytes} {is : List Instruction}
    (hspells : Spells 0 is code) (hcode : code.length < 2 ^ 31)
    (hdecl : ∀ i ∈ is, table.Declares i)
    (htargets : ∀ i ∈ is, ∀ t ∈ i.targets, t ∈ is.map (·.offset)) :
    decodeCode table code = .ok is := by
  -- every start lies in the code, and so does every target
  have hstarts : ∀ t ∈ is.map (·.offset), t < code.length := by
    intro t ht
    obtain ⟨j, hj, rfl⟩ := List.mem_map.mp ht
    have hlt := hspells.offset_lt j hj
    omega
  have hscan : Decode.scan table code.length [] 0 code = .ok is :=
    Decode.scan_of_spells [] hspells hcode (by omega) hdecl
      fun i hi t ht => hstarts t (htargets i hi t ht)
  rw [decodeCode, hscan, ok_bind]
  exact Decode.settle_of_declared (fun i hi => (hdecl i hi).source) hstarts htargets

/-! ### Assembling -/

namespace Assembly

/-- Appends instructions. -/
def emitAll (a : Assembly) (is : List Instruction) : Assembly :=
  is.foldl (fun a i => a.emit i.opcode i.operand) a

@[simp] lemma raw_nil (a : Assembly) : a.raw [] = a := by rw [raw, List.append_nil]

@[simp] lemma raw_raw (a : Assembly) (bs cs : Bytes) : (a.raw bs).raw cs = a.raw (bs ++ cs) := by
  rw [raw, raw, raw, List.append_assoc]

@[simp] lemma position_raw (a : Assembly) (bs : Bytes) :
    (a.raw bs).position = a.position + bs.length := List.length_append

end Assembly

/-- Assembling instructions where they stand appends their spelling. -/
lemma Spells.emitAll_eq {is : List Instruction} {bs : Bytes} {a : Assembly}
    (h : Spells a.position is bs) : a.emitAll is = a.raw bs := by
  generalize ho : a.position = o at h
  induction h generalizing a with
  | nil o => rw [Assembly.raw_nil, Assembly.emitAll, List.foldl_nil]
  | @cons i is rest hsize _ ih =>
      have hemit : a.emit i.opcode i.operand = a.raw i.bytes := by
        rw [Assembly.emit, ho, Instruction.bytes]
      have hnext : (a.raw i.bytes).position = i.finish := by
        rw [Assembly.position_raw, ho, hsize, Instruction.finish]
      have hrest := ih hnext
      rw [Assembly.emitAll] at hrest ⊢
      rw [List.foldl_cons, hemit, hrest, Assembly.raw_raw]

end OpcodeRecovery
