import Mathlib.Tactic
import OpcodeRecovery.Proofs.Code.Cache
import OpcodeRecovery.Proofs.Code.Classification
import OpcodeRecovery.Proofs.Code.Inference
import OpcodeRecovery.Proofs.Code.Votes

/-!
What becomes of a method when the shapes that were inferred for it are declared.

* `Decode.reread` is what is read where an instruction stands. If all opcodes are declared, then the
  pass over a code does this for one instruction after the other (`Decode.scan_eq_mapM_reread`).
* All operands of an undeclared opcode have one size, and so have all shapes that were inferred for
  them (`Decode.Settled.fixedSize?_shape`). Where the opcode is a branch opcode, each operand leads
  to a start, apart from a zero at the end of the code (`Decode.Settled.leadsTo_or_last`).
* `ShapeVotes.Becomes` says what is read where an instruction stands when the dominant shapes are
  declared (`Decode.becomes_reread`): the instruction with its shape declared
  (`ShapeVotes.Promotes`), or nothing, if it is such a zero and branches dominate
  (`ShapeVotes.Strands`).
* `decodeCode_promote` and `decodeMethod_promote` say this of codes and of methods, and
  `promotion_keeps_layout` of the method that a fresh cache was asked for.
-/

namespace OpcodeRecovery

namespace Decode

variable {table : ShapeTable} {widths : UInt8 → Width} {code : Bytes} {i j : Instruction}
  {is js : List Instruction} {shape : OperandShape}

/-! ### Reading once more -/

/-- What is read where an instruction stands, with nothing remembered. -/
def reread (table : ShapeTable) (code : Bytes) (i : Instruction) : Except Error Instruction :=
  (instruction table [] ⟨i.opcode, i.offset, code.length⟩ (code.drop (i.offset + 1))).map Prod.fst

/-- A declared opcode is read with an operand of its shape. -/
lemma reread_eq (hshape : table.get? i.opcode = some shape) :
    reread table code i
      = (declaredOperand ⟨i.opcode, i.offset, code.length⟩ (code.drop (i.offset + 1)) shape).map
        fun r => ⟨i.offset, 1 + r.2, i.opcode, r.1, .declared⟩ := by
  simp only [reread, instruction, hshape]
  cases declaredOperand ⟨i.opcode, i.offset, code.length⟩ (code.drop (i.offset + 1)) shape <;> rfl

/-- What is remembered has no part in reading a declared opcode. -/
lemma instruction_eq_reread (hshape : table.get? i.opcode = some shape) (memory : Width.Memory) :
    instruction table memory ⟨i.opcode, i.offset, code.length⟩ (code.drop (i.offset + 1))
      = (reread table code i).map (·, memory) := by
  simp only [reread_eq hshape, instruction, hshape]
  cases declaredOperand ⟨i.opcode, i.offset, code.length⟩ (code.drop (i.offset + 1)) shape <;> rfl

/-- A pass over instructions whose opcodes are all declared reads each of them once more, as long as
each one that is read takes the same space as before. -/
lemma scan_eq_mapM_reread {o : ℕ} {memory : Width.Memory} (htiles : Tiles o is code.length)
    (hopcode : ∀ i ∈ is, code[i.offset]? = some i.opcode)
    (hdeclared : ∀ i ∈ is, ∃ shape, table.get? i.opcode = some shape)
    (hsame : ∀ i ∈ is, ∀ j, reread table code i = .ok j → i.Alike j) :
    scan table code.length memory o (code.drop o) = is.mapM (reread table code) := by
  generalize hend : code.length = e at htiles
  induction htiles with
  | nil o =>
      subst hend
      rw [List.drop_length, scan, List.mapM_nil, pure_eq_ok]
  | @cons i is e hpos htiles ih =>
      subst hend
      have hrest := ih (fun k hk => hopcode k (List.mem_cons_of_mem i hk))
        (fun k hk => hdeclared k (List.mem_cons_of_mem i hk))
        (fun k hk => hsame k (List.mem_cons_of_mem i hk)) rfl
      obtain ⟨shape, hshape⟩ := hdeclared i List.mem_cons_self
      have hhere := hopcode i List.mem_cons_self
      have hread : instruction table memory ⟨i.opcode, i.offset, code.length⟩
          (code.drop (i.offset + 1)) = (reread table code i).map (·, memory) :=
        instruction_eq_reread hshape memory
      rw [List.mapM_cons]
      cases hj : reread table code i with
      | error e =>
          rw [hj] at hread
          exact scan_of_error hhere hread
      | ok j =>
          rw [hj] at hread
          rw [scan_of_instruction hhere hread, (hsame i List.mem_cons_self j hj).finish, hrest,
            ok_bind]
          cases is.mapM (reread table code) <;> rfl

/-- A declared instruction is read once more as it is. -/
lemma reread_of_declared (h : decodeCode table code = .ok js) (hj : j ∈ js)
    (hshape : table.get? j.opcode = some shape) : reread table code j = .ok j := by
  obtain ⟨is, memory, widths, hscanned, -, hread, hsettled⟩ := exists_scanned_settled h
  obtain ⟨i, hi, hone⟩ := exists_mem_of_forall₂ hsettled hj
  obtain ⟨halike, -, -, hkept⟩ := settleOne_frame hone
  rw [halike.opcode] at hshape
  obtain rfl := hkept ((hread i hi).declared shape hshape).1
  obtain ⟨memory₁, memory₂, hread⟩ := hscanned.read_of_mem hi
  rw [instruction_eq_reread hshape] at hread
  cases hj : reread table code j with
  | error e =>
      rw [hj] at hread
      cases hread
  | ok k =>
      rw [hj] at hread
      rw [(Prod.mk.inj (Except.ok.inj hread)).1]

/-- An operand of a fixed size that is no branch is read wherever it fits. -/
lemma reread_of_plain {n : ℕ} (hshape : table.get? j.opcode = some shape)
    (hn : shape.fixedSize? = some n) (hplain : shape ≠ .branch)
    (hfit : n ≤ (code.drop (j.offset + 1)).length) :
    ∃ operand, reread table code j = .ok ⟨j.offset, 1 + n, j.opcode, operand, .declared⟩
      ∧ operand.shape = shape ∧ operand.targets = [] := by
  rw [reread_eq hshape]
  cases shape with
  | branch => exact absurd rfl hplain
  | switch => cases hn
  | none =>
      obtain rfl := Option.some.inj hn
      exact ⟨_, rfl, rfl, rfl⟩
  | byte | int32 | int64 | token =>
      obtain rfl := Option.some.inj hn
      rw [declaredOperand, operandBytes_of_le 1 hfit]
      exact ⟨_, rfl, rfl, rfl⟩

/-- A branch is read if it leads into the code. -/
lemma reread_of_branch (hshape : table.get? j.opcode = some .branch)
    (hfit : 4 ≤ (code.drop (j.offset + 1)).length) :
    reread table code j
      = (target ⟨j.opcode, j.offset, code.length⟩ (j.offset + 5) (j.number code)).map
        fun t => ⟨j.offset, 5, j.opcode, .branch t, .declared⟩ := by
  rw [reread_eq hshape, declaredOperand, operandBytes_of_le 1 hfit, ok_bind, Instruction.number]
  dsimp only
  cases target ⟨j.opcode, j.offset, code.length⟩ (j.offset + 5)
    (int32 ((code.drop (j.offset + 1)).take 4)) <;> rfl

/-! ### Operands of undeclared opcodes -/

/-- An operand of an inferred width has a shape of a fixed size. -/
lemma fixedSize?_of_inferredOperand {p : Place} {bs : Bytes} {width : Width} {operand : Operand}
    (h : inferredOperand p bs width = .ok operand) :
    operand.shape.fixedSize? = some operand.size := by
  obtain ⟨v, rest, -, -, hv⟩ := of_operandBytes_bind h
  cases width with
  | zero | one | four | eight =>
      obtain rfl := Except.ok.inj hv
      rfl

/-- Whatever is inferred, an operand of an undeclared opcode has a shape of a fixed size. -/
lemma Settled.fixedSize?_shape (hread : ∀ i ∈ is, ReadAt table widths code i)
    (h : Settled code is js) (hj : j ∈ js) (hnone : table.get? j.opcode = none) :
    j.shape.fixedSize? = some j.operand.size := by
  obtain ⟨i, hi, hone⟩ := exists_mem_of_forall₂ h hj
  rcases settleOne_cases hone with ⟨v, isBranch, -, rfl⟩ | ⟨-, rfl, -⟩
  · simp only [Instruction.shape]
    rcases classify_cases (startsOf code is) i.finish isBranch v with ⟨t, -, h⟩ | h | h <;>
      rw [h] <;> rfl
  · exact fixedSize?_of_inferredOperand ((hread j hi).inferred hnone).2

/-- An operand of a branch opcode leads to the start of an instruction. The one exception is a zero
behind which the code ends. -/
lemma Settled.leadsTo_or_last (htiles : Tiles 0 is code.length)
    (hread : ∀ i ∈ is, ReadAt table widths code i) (h : Settled code is js) (hj : j ∈ js)
    (hnone : table.get? j.opcode = none) (hsize : j.size = 5)
    (hbranch : BranchOpcode code js j.opcode) :
    (∃ t, j.LeadsTo code js t) ∨ js.getLast? = some j ∧ j.operand = .int32 0 := by
  by_cases hleads : ∃ t, j.LeadsTo code js t
  · exact .inl hleads
  · have hzero : j.number code = 0 := by
      by_contra hne
      exact hleads (hbranch.leads j hj rfl hne)
    refine .inr ?_
    rcases (htiles.congr h.alike).finish_mem_or_last j hj with hnext | hlast
    · -- a zero leads to the next instruction
      exact absurd ⟨j.finish, by rw [hzero]; simp, hnext⟩ hleads
    · have hplain := h.operand_eq hread hj hnone hsize
      have hne : ∀ t, j.operand ≠ .branch t := fun t ht =>
        hleads ⟨t, ((h.operand_eq_branch_iff htiles hread hj hnone hsize).mp ht).2⟩
      rw [hplain] at hne
      rw [hplain, classify_eq_plain hne, hzero]
      exact ⟨hlast, by decide⟩

/-- An operand that is taken for a number is the number behind the opcode. -/
lemma Settled.number_eq (hread : ∀ i ∈ is, ReadAt table widths code i) (h : Settled code is js)
    (hj : j ∈ js) (hnone : table.get? j.opcode = none) (hsize : j.size = 5) {v : Int32}
    (hv : j.operand = .int32 v) : j.number code = v := by
  rw [h.operand_eq hread hj hnone hsize] at hv
  rcases classify_cases (startsOf code is) j.finish (verdict (startsOf code is) is j.opcode)
    (j.number code) with ⟨t, -, h⟩ | h | h
  · cases h.symm.trans hv
  · cases h.symm.trans hv
  · exact Operand.int32.inj (h.symm.trans hv)

lemma exists_of_shape_eq_branch (h : j.shape = .branch) : ∃ t, j.operand = .branch t := by
  rw [Instruction.shape] at h
  cases hoperand : j.operand with
  | branch t => exact ⟨t, rfl⟩
  | none | byte | int32 | int64 | token | switch =>
      rw [hoperand] at h
      cases h

lemma Settled.finish_le (hread : ∀ i ∈ is, ReadAt table widths code i) (h : Settled code is js)
    (hj : j ∈ js) : j.finish ≤ code.length := by
  obtain ⟨i, hi, hone⟩ := exists_mem_of_forall₂ h hj
  rw [(settleOne_frame hone).1.finish]
  exact (hread i hi).fits

/-- Where an operand of a branch opcode is declared to be a branch, it is read as one to the place
it leads to, unless it is a zero behind which the code ends. -/
lemma Settled.reread_branch {promoted : ShapeTable} (htiles : Tiles 0 is code.length)
    (hread : ∀ i ∈ is, ReadAt table widths code i) (h : Settled code is js) (hj : j ∈ js)
    (hnone : table.get? j.opcode = none) (hsize : j.size = 5)
    (hbranch : BranchOpcode code js j.opcode) (hshape : promoted.get? j.opcode = some .branch) :
    (¬ (js.getLast? = some j ∧ j.operand = .int32 0) ∧ ∃ t ∈ js.map (·.offset),
        reread promoted code j = .ok ⟨j.offset, 5, j.opcode, .branch t, .declared⟩)
      ∨ (js.getLast? = some j ∧ j.operand = .int32 0)
        ∧ ∃ e, reread promoted code j = .error e := by
  have hdis := h.disassembly htiles hread
  have hfinish : j.finish = j.offset + 5 := by rw [Instruction.finish, hsize]
  have hfits := h.finish_le hread hj
  rw [reread_of_branch hshape (by rw [List.length_drop]; omega)]
  by_cases hzero : js.getLast? = some j ∧ j.operand = .int32 0
  · refine .inr ⟨hzero, ?_⟩
    have hend := hdis.last j hzero.1
    cases htarget : target ⟨j.opcode, j.offset, code.length⟩ (j.offset + 5) (j.number code) with
    | error e => exact ⟨e, rfl⟩
    | ok t =>
        obtain ⟨ht, hlt⟩ := target_eq_ok_iff.mp htarget
        rw [h.number_eq hread hj hnone hsize hzero.2, ← hfinish, hend, Int32.toInt_zero,
          add_zero, Nat.cast_inj] at ht
        exact absurd hlt (ht ▸ Nat.lt_irrefl _)
  · refine .inl ⟨hzero, ?_⟩
    obtain ⟨t, ht, hstart⟩ :=
      (h.leadsTo_or_last htiles hread hj hnone hsize hbranch).resolve_right hzero
    obtain ⟨k, hk, rfl⟩ := List.mem_map.mp hstart
    have hlt : k.offset < code.length := (List.getElem?_eq_some_iff.mp (hdis.opcode k hk)).1
    refine ⟨k.offset, hstart, ?_⟩
    rw [target_eq_ok_iff.mpr ⟨hfinish ▸ ht, hlt⟩]
    rfl

end Decode

/-! ### Promotion -/

/-- An instruction with the shape of its operand declared: it stands where it stood, and if its
shape was inferred, it now has the shape that was inferred most often for its opcode. -/
structure ShapeVotes.Promotes (votes : ShapeVotes) (i j : Instruction) : Prop where
  alike : i.Alike j
  declared : j.source = .declared
  kept : i.source = .declared → j = i
  dominant : i.source = .inferred → votes.dominant i.opcode = some j.shape

/-- The last of some instructions, a zero whose opcode has mostly been taken for a branch. -/
structure ShapeVotes.Strands (votes : ShapeVotes) (is : List Instruction) (i : Instruction) :
    Prop where
  last : is.getLast? = some i
  inferred : i.source = .inferred
  zero : i.operand = .int32 0
  branch : votes.dominant i.opcode = some .branch

/-- What becomes of an instruction when the dominant shapes are declared: it is read with its shape
declared and leads to starts only, or it cannot be read, since it is stranded. -/
inductive ShapeVotes.Becomes (votes : ShapeVotes) (is : List Instruction) (i : Instruction) :
    Except Error Instruction → Prop where
  | promoted {j : Instruction} (hreads : ¬ votes.Strands is i) (h : votes.Promotes i j)
      (hlands : ∀ t ∈ j.targets, t ∈ is.map (·.offset)) : Becomes votes is i (.ok j)
  | stranded (e : Error) (h : votes.Strands is i) : Becomes votes is i (.error e)

namespace Decode

variable {table : ShapeTable} {votes : ShapeVotes} {code : Bytes} {i j : Instruction}
  {js : List Instruction}

/-- An inferred instruction with an operand of the dominant shape in the place of its own. -/
lemma promotes_of_inferred {operand : Operand} (hsource : j.source = .inferred)
    (hshape : votes.dominant j.opcode = some operand.shape) :
    votes.Promotes j ⟨j.offset, j.size, j.opcode, operand, .declared⟩ where
  alike := ⟨rfl, rfl, rfl⟩
  declared := rfl
  kept h := by cases hsource.symm.trans h
  dominant _ := hshape

lemma becomes_of_declared {shape : OperandShape} (h : decodeCode table code = .ok js) (hj : j ∈ js)
    (hdeclared : table.get? j.opcode = some shape) :
    votes.Becomes js j (reread (votes.promote table) code j) := by
  obtain ⟨is, memory, widths, -, htiles, hread, hsettled⟩ := exists_scanned_settled h
  have hdis := hsettled.disassembly htiles hread
  obtain ⟨hsource, -⟩ := hdis.declared j hj shape hdeclared
  have hpromoted : (votes.promote table).get? j.opcode = some shape := by
    rw [ShapeVotes.get?_promote, hdeclared, Option.some_or]
  rw [reread_eq hpromoted, ← reread_eq hdeclared, reread_of_declared h hj hdeclared]
  refine .promoted (fun hs => ?_) ⟨⟨rfl, rfl, rfl⟩, hsource, fun _ => rfl, fun hs => ?_⟩
    (hdis.landed j hj)
  · cases hsource.symm.trans hs.inferred
  · cases hsource.symm.trans hs

lemma becomes_of_undeclared (h : decodeCode table code = .ok js) (hvotes : votes.Tally js)
    (hj : j ∈ js) (hnone : table.get? j.opcode = none) :
    votes.Becomes js j (reread (votes.promote table) code j) := by
  obtain ⟨is, memory, widths, -, htiles, hread, hsettled⟩ := exists_scanned_settled h
  have hdis := hsettled.disassembly htiles hread
  obtain ⟨hsource, hsame⟩ := hdis.inferred j hj hnone
  -- the dominant shape is that of an operand of the same opcode, and so of the same size
  obtain ⟨shape, hshape⟩ := hvotes.exists_dominant hj hsource
  obtain ⟨i, hi, -, hopcode, rfl⟩ := hvotes.exists_of_dominant hshape
  have hsize : i.size = j.size := hsame i hi hopcode
  have hinferred : table.get? i.opcode = none := hopcode ▸ hnone
  have hpromoted : (votes.promote table).get? j.opcode = some i.shape := by
    rw [ShapeVotes.get?_promote, hnone, Option.none_or, hshape]
  by_cases hbranch : i.shape = .branch
  · rw [hbranch] at hpromoted hshape
    obtain ⟨t, ht⟩ := exists_of_shape_eq_branch hbranch
    have hfive : i.size = 5 := by
      rw [hdis.size i hi, ht]
      rfl
    have hopcodes : BranchOpcode code js i.opcode :=
      ((hsettled.operand_eq_branch_iff htiles hread hi hinferred hfive).mp ht).1
    rw [hopcode] at hopcodes
    rw [hsize] at hfive
    rcases hsettled.reread_branch htiles hread hj hnone hfive hopcodes hpromoted with
      ⟨hno, u, hstart, hk⟩ | ⟨⟨hlast, hzero⟩, e, hfail⟩
    · rw [hk, ← hfive]
      refine .promoted (fun hs => hno ⟨hs.last, hs.zero⟩) (promotes_of_inferred hsource hshape) ?_
      intro t ht
      rwa [List.mem_singleton.mp ht]
    · rw [hfail]
      exact .stranded e ⟨hlast, hsource, hzero, hshape⟩
  · rw [hdis.size i hi] at hsize
    have hfit : i.operand.size ≤ (code.drop (j.offset + 1)).length := by
      have hfits := hsettled.finish_le hread hj
      rw [Instruction.finish] at hfits
      rw [List.length_drop]
      omega
    obtain ⟨operand, hk, hoperand, htargets⟩ := reread_of_plain hpromoted
      (hsettled.fixedSize?_shape hread hi hinferred) hbranch hfit
    rw [hk, hsize]
    refine .promoted (fun hs => ?_) (promotes_of_inferred hsource (hoperand ▸ hshape)) ?_
    · exact hbranch (Option.some.inj (hshape.symm.trans hs.branch))
    · simp [Instruction.targets, htargets]

/-- **Each instruction** of a code that was decoded is read once more with its shape declared, or is
stranded. -/
lemma becomes_reread (h : decodeCode table code = .ok js) (hvotes : votes.Tally js) (hj : j ∈ js) :
    votes.Becomes js j (reread (votes.promote table) code j) := by
  cases hdeclared : table.get? j.opcode with
  | some shape => exact becomes_of_declared h hj hdeclared
  | none => exact becomes_of_undeclared h hvotes hj hdeclared

/-- Every opcode of a code that was decoded is declared when the dominant shapes are promoted. -/
lemma exists_shape_promote (h : decodeCode table code = .ok js) (hvotes : votes.Tally js)
    (hj : j ∈ js) : ∃ shape, (votes.promote table).get? j.opcode = some shape := by
  rw [ShapeVotes.get?_promote]
  cases hdeclared : table.get? j.opcode with
  | some shape => exact ⟨shape, rfl⟩
  | none =>
      obtain ⟨is, widths, htiles, hread, hsettled⟩ := exists_settled h
      have hsource := ((hsettled.disassembly htiles hread).inferred j hj hdeclared).1
      exact hvotes.exists_dominant hj hsource

lemma promotes_of_reread (h : decodeCode table code = .ok js) (hvotes : votes.Tally js)
    (hj : j ∈ js) {k : Instruction} (hk : reread (votes.promote table) code j = .ok k) :
    votes.Promotes j k ∧ ∀ t ∈ k.targets, t ∈ js.map (·.offset) := by
  have hbecomes := becomes_reread h hvotes hj
  rw [hk] at hbecomes
  cases hbecomes with
  | promoted _ hpromotes hlands => exact ⟨hpromotes, hlands⟩

/-- If all instructions are read once more, then all of them have their shapes declared. -/
lemma promotes_of_mapM_reread (h : decodeCode table code = .ok js) (hvotes : votes.Tally js)
    {ks : List Instruction} (hks : js.mapM (reread (votes.promote table) code) = .ok ks) :
    List.Forall₂ (fun j k => votes.Promotes j k ∧ ∀ t ∈ k.targets, t ∈ js.map (·.offset))
      js ks := by
  have hread := (List.forall₂_and_left js ks).mpr ⟨fun j hj => hj, mapM_eq_ok_iff.mp hks⟩
  exact hread.imp fun j k hjk => promotes_of_reread h hvotes hjk.1 hjk.2

end Decode

section Code

variable {table : ShapeTable} {votes : ShapeVotes} {code : Bytes} {is : List Instruction}

/-- Code is read anew, instruction by instruction, when the dominant shapes are declared. -/
lemma decodeCode_promote (h : decodeCode table code = .ok is) (hvotes : votes.Tally is) :
    decodeCode (votes.promote table) code
      = is.mapM (Decode.reread (votes.promote table) code) := by
  obtain ⟨is₀, widths, htiles, hread, hsettled⟩ := Decode.exists_settled h
  have hdis := hsettled.disassembly htiles hread
  have hscan : Decode.scan (votes.promote table) code.length [] 0 code
      = is.mapM (Decode.reread (votes.promote table) code) :=
    Decode.scan_eq_mapM_reread (htiles.congr hsettled.alike) hdis.opcode
      (fun i hi => Decode.exists_shape_promote h hvotes hi)
      fun i hi j hj => (Decode.promotes_of_reread h hvotes hi hj).1.alike
  rw [decodeCode, hscan]
  cases hjs : is.mapM (Decode.reread (votes.promote table) code) with
  | error e => rfl
  | ok js =>
      -- the second look finds declared instructions only, and the same starts as before
      have hpromotes := Decode.promotes_of_mapM_reread h hvotes hjs
      have hoffsets := map_offset_eq_of_alike (hpromotes.imp fun i j hij => hij.1.alike)
      rw [hoffsets] at hpromotes
      have hmade : ∀ j ∈ js, j.source = .declared ∧ ∀ t ∈ j.targets, t ∈ js.map (·.offset) := by
        intro j hj
        obtain ⟨i, -, hij⟩ := exists_mem_of_forall₂ hpromotes hj
        exact ⟨hij.1.declared, hij.2⟩
      refine Decode.settle_of_declared (fun j hj => (hmade j hj).1) (fun t ht => ?_)
        fun j hj => (hmade j hj).2
      rw [← hoffsets] at ht
      obtain ⟨i, hi, rfl⟩ := List.mem_map.mp ht
      exact (List.getElem?_eq_some_iff.mp (hdis.opcode i hi)).1

/-- Code that was decoded cannot be decoded anew exactly if its last instruction is stranded. -/
lemma decodeCode_promote_eq_error_iff (h : decodeCode table code = .ok is)
    (hvotes : votes.Tally is) :
    (∃ e, decodeCode (votes.promote table) code = .error e) ↔ ∃ i, votes.Strands is i := by
  rw [decodeCode_promote h hvotes]
  constructor
  · rintro ⟨e, he⟩
    obtain ⟨i, hi, hfail⟩ := exists_mem_of_mapM_eq_error he
    have hbecomes := Decode.becomes_reread h hvotes hi
    rw [hfail] at hbecomes
    cases hbecomes with
    | stranded _ hstrands => exact ⟨i, hstrands⟩
  · rintro ⟨i, hstrands⟩
    cases hjs : is.mapM (Decode.reread (votes.promote table) code) with
    | error e => exact ⟨e, rfl⟩
    | ok js =>
        have hi : i ∈ is := List.mem_of_getLast? hstrands.last
        obtain ⟨j, -, hij⟩ := exists_mem_of_forall₂ (mapM_eq_ok_iff.mp hjs).flip hi
        have hbecomes := Decode.becomes_reread h hvotes hi
        rw [hij] at hbecomes
        cases hbecomes with
        | promoted hreads _ _ => exact absurd hstrands hreads

end Code

/-- A method that was decoded is decoded anew with its shapes declared, unless its last instruction
is stranded. -/
lemma decodeMethod_promote {table : ShapeTable} {votes : ShapeVotes} {stream : Stream}
    {m : Method} (h : decodeMethod table stream = .ok m)
    (hvotes : votes.Tally m.instructions.toList) :
    (∃ i, votes.Strands m.instructions.toList i)
        ∧ (∃ fault, decodeMethod (votes.promote table) stream = .error (.format fault))
      ∨ (¬ ∃ i, votes.Strands m.instructions.toList i)
        ∧ ∃ m', decodeMethod (votes.promote table) stream = .ok m' ∧ m'.key = m.key
          ∧ m'.codeSize = m.codeSize ∧ m'.regions = m.regions
          ∧ List.Forall₂ votes.Promotes m.instructions.toList m'.instructions.toList := by
  obtain ⟨code, regions, is, hsplit, hinside, his, rfl⟩ := decodeMethod_eq_ok_iff.mp h
  have hfails := decodeCode_promote_eq_error_iff his hvotes
  rw [decodeMethod_of_split hsplit hinside]
  cases hagain : decodeCode (votes.promote table) code with
  | error e =>
      obtain ⟨fault, rfl⟩ := decodeCode_faulty code e hagain
      exact .inl ⟨hfails.mp ⟨_, hagain⟩, fault, rfl⟩
  | ok js =>
      refine .inr ⟨fun hstrands => ?_, _, rfl, rfl, rfl, rfl, ?_⟩
      · obtain ⟨e, he⟩ := hfails.mpr hstrands
        cases hagain.symm.trans he
      · rw [decodeCode_promote his hvotes] at hagain
        exact (Decode.promotes_of_mapM_reread his hvotes hagain).imp fun i j hij => hij.1

/-- A fresh cache that is asked for one method counts the shapes of that method. -/
lemma Cache.votes_request {table : ShapeTable} {key : MethodKey} {stream : Stream} {m : Method}
    (h : ((Cache.empty table).request key stream).2.result = .ok m) :
    ((Cache.empty table).request key stream).1.votes = recordVotes .empty m := by
  rw [request_result_of_new rfl] at h
  rw [request_fst_of_new rfl]
  simp only [keep, h]
  rfl

/-- **Declaring what was inferred keeps the layout of a method.** Let a fresh cache be asked for one
method, and let it be decoded. With the dominant shapes declared, the stream cannot be decoded
exactly if the last instruction of the method is stranded: its operand was inferred to be the number
zero, while its opcode was taken for a branch most often. Then the bytes are at fault. Otherwise the
stream is decoded as a method with the same regions and with instructions of the same opcodes and
sizes at the same offsets. The shapes of all of them are declared, and those that were inferred are
the dominant ones. -/
theorem promotion_keeps_layout {table : ShapeTable} {key : MethodKey} {stream : Stream}
    {m : Method} (h : ((Cache.empty table).request key stream).2.result = .ok m) :
    let votes := ((Cache.empty table).request key stream).1.votes
    let again := decodeMethod (votes.promote table) stream
    let stranded := ∃ i, votes.Strands m.instructions.toList i
    ((∃ e, again = .error e) ↔ stranded)
    ∧ (stranded → ∃ fault, again = .error (.format fault))
    ∧ (¬ stranded → ∃ m', again = .ok m' ∧ m'.key = m.key ∧ m'.codeSize = m.codeSize
        ∧ m'.regions = m.regions
        ∧ List.Forall₂ votes.Promotes m.instructions.toList m'.instructions.toList) := by
  intro votes again stranded
  have hvotes : votes.Tally m.instructions.toList := by
    rw [show votes = Cache.recordVotes .empty m from Cache.votes_request h]
    exact ShapeVotes.Tally.empty.recordVotes m
  rw [Cache.request_result_of_new rfl] at h
  have hm : decodeMethod table stream = .ok m := (Cache.decodeFor_eq_ok_iff.mp h).2
  rcases decodeMethod_promote hm hvotes with ⟨hstranded, fault, hfails⟩ | ⟨hno, m', hdecoded, hm'⟩
  · exact ⟨iff_of_true ⟨_, hfails⟩ hstranded, fun _ => ⟨fault, hfails⟩,
      fun hno => absurd hstranded hno⟩
  · refine ⟨iff_of_false ?_ hno, fun hstranded => absurd hstranded hno,
      fun _ => ⟨m', hdecoded, hm'⟩⟩
    rintro ⟨e, he⟩
    cases hdecoded.symm.trans he

/-- An opcode whose operand leads back to the start twice, and is zero at the end of the code. -/
def strandedCode : Bytes :=
  [0x50, 0xFB, 0xFF, 0xFF, 0xFF] ++ [0x02] ++ [0x50, 0xF5, 0xFF, 0xFF, 0xFF] ++ [0x02]
    ++ [0x50, 0, 0, 0, 0]

/-- What it is decoded as. -/
def strandedListing : List Instruction :=
  [⟨0, 5, 0x50, .branch 0, .inferred⟩, ⟨5, 1, 0x02, .none, .declared⟩,
    ⟨6, 5, 0x50, .branch 0, .inferred⟩, ⟨11, 1, 0x02, .none, .declared⟩,
    ⟨12, 5, 0x50, .int32 0, .inferred⟩]

/-- A call for a method without regions. -/
def plainCall (code : Bytes) : Cache.Call :=
  ⟨⟨⟨0x06000001⟩, 7⟩, ⟨⟨⟨0x06000001⟩, 7⟩, 0 :: code⟩⟩

/-- The cache that was asked for this method only. -/
def soleCache (code : Bytes) : Cache :=
  ((Cache.empty loopTable).request (plainCall code).key (plainCall code).stream).1

/-- Two votes for a branch against one for a number strand the zero at the end of the code. In the
loop there is one vote for each, so its zero is declared to be the number that it is. -/
theorem promotion_keeps_layout_samples :
    (soleCache strandedCode).votes.dominant 0x50 = some .branch
      ∧ (∃ fault, decodeMethod ((soleCache strandedCode).votes.promote loopTable)
        (plainCall strandedCode).stream = .error (.format fault))
      ∧ (soleCache loopCode).votes.dominant 0x50 = some .int32
      ∧ ∃ m, decodeMethod ((soleCache loopCode).votes.promote loopTable)
        (plainCall loopCode).stream = .ok m
        ∧ List.Forall₂ (soleCache loopCode).votes.Promotes loopListing m.instructions.toList := by
  have hreply {code : Bytes} {m : Method}
      (h : decodeMethod loopTable (plainCall code).stream = .ok m) :
      ((Cache.empty loopTable).request (plainCall code).key (plainCall code).stream).2.result
        = .ok m := by
    rw [Cache.request_result_of_new rfl]
    exact Cache.decodeFor_eq_ok_iff.mpr ⟨rfl, h⟩
  have hstranded := hreply (show decodeMethod loopTable (plainCall strandedCode).stream
    = .ok (.ofParts (plainCall strandedCode).key 17 strandedListing []) by decide +kernel)
  have hloop := hreply (show decodeMethod loopTable (plainCall loopCode).stream
    = .ok (.ofParts (plainCall loopCode).key 24 loopListing []) by decide +kernel)
  have hbranch : (soleCache strandedCode).votes.dominant 0x50 = some .branch := by
    rw [soleCache, Cache.votes_request hstranded]
    decide +kernel
  have hnumber : (soleCache loopCode).votes.dominant 0x50 = some .int32 := by
    rw [soleCache, Cache.votes_request hloop]
    decide +kernel
  refine ⟨hbranch, ?_, hnumber, ?_⟩
  · exact (promotion_keeps_layout hstranded).2.1
      ⟨⟨12, 5, 0x50, .int32 0, .inferred⟩, rfl, rfl, rfl, hbranch⟩
  · have hno : ¬ ∃ i, (soleCache loopCode).votes.Strands loopListing i := by
      rintro ⟨i, hlast, -, -, hi⟩
      obtain rfl : Instruction.mk 19 5 0x50 (.int32 0) .inferred = i := Option.some.inj hlast
      cases hnumber.symm.trans hi
    obtain ⟨m, hm, -, -, -, hpromotes⟩ := (promotion_keeps_layout hloop).2.2 hno
    exact ⟨m, hm, hpromotes⟩

end OpcodeRecovery
