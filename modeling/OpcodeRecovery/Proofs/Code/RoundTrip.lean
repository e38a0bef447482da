import Mathlib.Tactic
import OpcodeRecovery.Proofs.Code.Header
import OpcodeRecovery.Proofs.Code.Spelling

/-!
Decoding and assembling undo each other.

* `Method.reassembled` puts the instructions and regions of a method together again.
  `decodeMethod_reassembled`: whatever table a stream was decoded with, this gives its code byte
  for byte, and a stream that is decoded as the same method. The stream itself may differ, since
  the same regions can be announced in several ways.
* `Assembly.run` carries out steps of assembling, and `Assembly.listing` says what instructions
  they append, and where. `decodeMethod_assembled`: if the steps are well-formed, the stream is
  decoded as the listing.

Both are about code as the spelling of its instructions; what is special to either is where the
spelling comes from.
-/

namespace OpcodeRecovery

/-! ### Assembling after decoding -/

namespace Assembly

lemma foldl_region (a : Assembly) (rs : List Region) :
    rs.foldl region a = ⟨a.regions ++ rs, a.code⟩ := by
  induction rs generalizing a with
  | nil => rw [List.foldl_nil, List.append_nil]
  | cons r rs ih => rw [List.foldl_cons, ih, region, List.append_assoc, List.singleton_append]

end Assembly

/-- The instructions of a method assembled in their order, with its regions. -/
def Method.reassembled (m : Method) : Assembly :=
  m.regions.foldl Assembly.region (Assembly.empty.emitAll m.instructions.toList)

/-- A method whose instructions spell a code is reassembled to that code. -/
lemma Spells.reassembled_ofParts {is : List Instruction} {code : Bytes} (h : Spells 0 is code)
    (key : MethodKey) (codeSize : ℕ) (regions : List Region) :
    (Method.ofParts key codeSize is regions).reassembled = ⟨regions, code⟩ := by
  have hemit : Assembly.empty.emitAll is = Assembly.empty.raw code :=
    Spells.emitAll_eq (a := Assembly.empty) h
  rw [Method.reassembled, Assembly.foldl_region]
  simp only [Method.ofParts, hemit, Assembly.raw]
  rfl

/-- **Decoding loses nothing**: the instructions of a decoded method, assembled in their order,
are the code of the stream byte for byte, which is the stream's tail; and the assembled stream
is decoded as the same method. Places are counted with signed 64-bit numbers, which no byte
string outgrows: one of `2 ^ 63` bytes cannot be addressed. -/
theorem decodeMethod_reassembled (table : ShapeTable) (stream : Stream) (m : Method)
    (hmemory : stream.data.length < 2 ^ 63) (h : decodeMethod table stream = .ok m) :
    (∃ records, Decode.splitStream stream.data = .ok (records, m.reassembled.code))
      ∧ m.reassembled.code = stream.data.drop (stream.data.length - m.codeSize)
      ∧ decodeMethod table ⟨stream.key, m.reassembled.build⟩ = .ok m := by
  obtain ⟨code, regions, is, hsplit, hinside, his, rfl⟩ := decodeMethod_eq_ok_iff.mp h
  obtain ⟨hsuffix, hcount, hfits⟩ := Decode.of_splitStream hsplit
  rw [List.length_map] at hcount
  rw [List.forall_mem_map] at hfits
  have hcode : code.length ≤ 2 ^ 63 := by
    have hle := hsuffix.length_le
    omega
  have hspells : Spells 0 is code := decodeCode_spells hcode his
  rw [hspells.reassembled_ofParts]
  refine ⟨⟨_, hsplit⟩, List.suffix_iff_eq_drop.mp hsuffix, ?_⟩
  exact decodeMethod_build stream.key hcount hfits hinside his

/-- A method with one region, whose count takes two bytes where one would do, and two undeclared
opcodes: the operands of `0x50` are branches, those of `0x60` tokens. -/
def sampleStream : Stream where
  key := ⟨⟨0x06000001⟩, 7⟩
  data := [0x01, 0x81, 0x00] ++ [0x02, 0, 0, 0, 0, 5, 0, 0, 0, 5, 0, 0, 0, 6, 0, 0, 0]
    ++ [0x10, 0x00, 0x00, 0x00, 0x00] ++ [0x50, 0xF6, 0xFF, 0xFF, 0xFF] ++ [0x02]
    ++ [0x60, 0x01, 0x00, 0x00, 0x06] ++ [0x02]

/-- The shapes that the sample declares. -/
def sampleTable : ShapeTable := (ShapeTable.default.declare 0x10 .branch).declare 0x02 .none

/-- What the sample is decoded as. -/
def sampleMethod : Method :=
  Method.ofParts sampleStream.key 17
    [⟨0, 5, 0x10, .branch 5, .declared⟩, ⟨5, 5, 0x50, .branch 0, .inferred⟩,
      ⟨10, 1, 0x02, .none, .declared⟩, ⟨11, 5, 0x60, .token ⟨0x06000001⟩, .inferred⟩,
      ⟨16, 1, 0x02, .none, .declared⟩]
    [⟨.finally, 0, 5, 5, 6⟩]

theorem decodeMethod_reassembled_sample :
    sampleStream.data.length < 2 ^ 63
      ∧ decodeMethod sampleTable sampleStream = .ok sampleMethod
      ∧ (∃ records,
        Decode.splitStream sampleStream.data = .ok (records, sampleMethod.reassembled.code))
      ∧ sampleMethod.reassembled.code = sampleStream.data.drop 20
      ∧ decodeMethod sampleTable ⟨sampleStream.key, sampleMethod.reassembled.build⟩
        = .ok sampleMethod := by
  have hmemory : sampleStream.data.length < 2 ^ 63 := by decide
  have h : decodeMethod sampleTable sampleStream = .ok sampleMethod := by
    decide +kernel
  exact ⟨hmemory, h, decodeMethod_reassembled sampleTable sampleStream sampleMethod hmemory h⟩

/-! ### Decoding after assembling -/

namespace Assembly

/-- A step of assembling. -/
inductive Step where
  /-- Appends an instruction. -/
  | instruction (opcode : UInt8) (operand : Operand)
  /-- Adds an exception region. -/
  | region (r : Region)

/-- The region that a step adds. -/
def Step.region? : Step → Option Region
  | instruction _ _ => none
  | region r => some r

/-- Carries out a step. -/
def apply (a : Assembly) : Step → Assembly
  | .instruction opcode operand => a.emit opcode operand
  | .region r => a.region r

/-- Carries out steps in their order. -/
def run (a : Assembly) (steps : List Step) : Assembly := steps.foldl apply a

/-- An instruction as it is appended: from the position before to the one behind it. -/
def appended (a : Assembly) (opcode : UInt8) (operand : Operand) : Instruction where
  offset := a.position
  size := (a.emit opcode operand).position - a.position
  opcode := opcode
  operand := operand
  source := .declared

/-- The instructions that steps append, in their order. -/
def listing (a : Assembly) : List Step → List Instruction
  | [] => []
  | .instruction opcode operand :: steps =>
      a.appended opcode operand :: (a.emit opcode operand).listing steps
  | .region r :: steps => (a.region r).listing steps

lemma source_of_mem_listing {a : Assembly} {steps : List Step} :
    ∀ i ∈ a.listing steps, i.source = .declared := by
  induction steps generalizing a with
  | nil =>
      intro i hi
      cases hi
  | cons step steps ih =>
      intro i hi
      cases step with
      | instruction opcode operand =>
          rcases List.mem_cons.mp hi with rfl | hi
          · rfl
          · exact ih i hi
      | region r => exact ih i hi

/-- An appended instruction takes the bytes that it is written as. -/
lemma appended_spec (a : Assembly) (opcode : UInt8) (operand : Operand) :
    (a.appended opcode operand).bytes.length = (a.appended opcode operand).size
      ∧ (a.appended opcode operand).finish = (a.emit opcode operand).position := by
  have hnext : (a.emit opcode operand).position
      = a.position + (a.appended opcode operand).bytes.length := position_raw a _
  have hsize : (a.appended opcode operand).size
      = (a.emit opcode operand).position - a.position := rfl
  have hoffset : (a.appended opcode operand).offset = a.position := rfl
  rw [Instruction.finish]
  omega

/-- Steps add their regions, and append code that their listing spells. -/
lemma run_eq (a : Assembly) (steps : List Step) :
    ∃ bs, a.run steps = ⟨a.regions ++ steps.filterMap Step.region?, a.code ++ bs⟩
      ∧ Spells a.position (a.listing steps) bs := by
  induction steps generalizing a with
  | nil =>
      refine ⟨[], ?_, .nil _⟩
      rw [run, List.foldl_nil, List.filterMap_nil, List.append_nil, List.append_nil]
  | cons step steps ih =>
      cases step with
      | instruction opcode operand =>
          obtain ⟨bs, hrun, hspells⟩ := ih (a.emit opcode operand)
          obtain ⟨hsize, hfinish⟩ := a.appended_spec opcode operand
          refine ⟨(a.appended opcode operand).bytes ++ bs, ?_, ?_⟩
          · rw [run, List.foldl_cons, apply, ← run, hrun, emit, raw, List.append_assoc]
            rfl
          · rw [← hfinish] at hspells
            exact Spells.cons hsize hspells
      | region r =>
          obtain ⟨bs, hrun, hspells⟩ := ih (a.region r)
          refine ⟨bs, ?_, hspells⟩
          rw [run, List.foldl_cons, apply, ← run, hrun, region, List.append_assoc]
          rfl

/-- Steps that make a method: the opcodes are declared with the shapes of their operands, every
target is the start of an instruction, every region lies in the code, and code and regions are
not too many to be counted. -/
structure WellFormed (table : ShapeTable) (steps : List Step) : Prop where
  declared : ∀ i ∈ empty.listing steps, table.get? i.opcode = some i.operand.shape
  landed : ∀ i ∈ empty.listing steps, ∀ t ∈ i.targets, t ∈ (empty.listing steps).map (·.offset)
  code_lt : (empty.run steps).position < 2 ^ 31
  inside : ∀ r ∈ steps.filterMap Step.region?,
    r.tryEnd ≤ (empty.run steps).position ∧ r.handlerEnd ≤ (empty.run steps).position
  regions_lt : (steps.filterMap Step.region?).length < 2 ^ 32

end Assembly

/-- **Well-formed code is decoded as it was assembled**: the decoded method has the size that
was assembled, the instructions of the listing and the regions that were added. -/
theorem decodeMethod_assembled (table : ShapeTable) (steps : List Assembly.Step) (key : MethodKey)
    (h : Assembly.WellFormed table steps) :
    ∃ m, decodeMethod table ⟨key, (Assembly.empty.run steps).build⟩ = .ok m
      ∧ m.key = key ∧ m.codeSize = (Assembly.empty.run steps).position
      ∧ m.instructions.toList = Assembly.empty.listing steps
      ∧ m.regions = steps.filterMap Assembly.Step.region? := by
  obtain ⟨code, hrun, hspells⟩ := Assembly.run_eq Assembly.empty steps
  obtain ⟨hdecl, hland, hcode, hinside, hcount⟩ := h
  rw [hrun] at hcode hinside ⊢
  have hdecode : decodeCode table code = .ok (Assembly.empty.listing steps) :=
    Spells.decodeCode_eq hspells hcode
      (fun i hi => ⟨Assembly.source_of_mem_listing i hi, hdecl i hi⟩) hland
  have hfits : ∀ r ∈ steps.filterMap Assembly.Step.region?, r.record.Fits := by
    intro r hr
    exact Decode.fits_of_inside (hcode.trans (by norm_num)) (hinside r hr)
  exact ⟨_, decodeMethod_build key hcount hfits hinside hdecode, rfl, rfl, rfl, rfl⟩

/-- A switch with targets on either side, a branch back to it, and a region around both. -/
def sampleSteps : List Assembly.Step :=
  [.instruction 0x01 (.byte 3), .region ⟨.catch, 2, 18, 20, 9⟩, .instruction 0x40 (.switch [0, 20]),
    .instruction 0x30 (.branch 2), .instruction 0x02 .none, .instruction 0x20 (.int64 (-1)),
    .region ⟨.fault, 0, 29, 0, 0⟩]

/-- The shapes that the steps of the sample declare. -/
def sampleShapes : ShapeTable :=
  [(0x01, OperandShape.byte), (0x40, .switch), (0x30, .branch), (0x02, .none), (0x20, .int64)].foldl
    (fun t e => t.declare e.1 e.2) .default

theorem decodeMethod_assembled_sample :
    Assembly.WellFormed sampleShapes sampleSteps
      ∧ ∃ m, decodeMethod sampleShapes ⟨⟨⟨0x06000001⟩, 7⟩, (Assembly.empty.run sampleSteps).build⟩
          = .ok m
        ∧ m.key = ⟨⟨0x06000001⟩, 7⟩ ∧ m.codeSize = (Assembly.empty.run sampleSteps).position
        ∧ m.instructions.toList = Assembly.empty.listing sampleSteps
        ∧ m.regions = sampleSteps.filterMap Assembly.Step.region? := by
  have h : Assembly.WellFormed sampleShapes sampleSteps :=
    ⟨by decide +kernel, by decide +kernel, by decide +kernel, by decide +kernel, by decide +kernel⟩
  exact ⟨h, decodeMethod_assembled sampleShapes sampleSteps ⟨⟨0x06000001⟩, 7⟩ h⟩

end OpcodeRecovery
