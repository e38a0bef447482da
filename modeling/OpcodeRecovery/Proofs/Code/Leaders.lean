import Mathlib.Tactic
import OpcodeRecovery.Proofs.Code.OffsetSet
import OpcodeRecovery.Proofs.Code.Tiling

/-!
The leaders and the regions of a decoded method.

* `Method.isLeader_ofParts_iff`: a method that is put together of its parts has as leaders the start
  of its first instruction, the targets, and the starts of regions and handlers
  (`Method.StartsRegion`), as far as they lie below the end of the code. A region may start at that
  end, and what starts there is no leader.
* `Disassembly.exists_first`: a code that is not empty has an instruction at its start. So the start
  of the first instruction is the start of the code, and both it and the targets are starts of
  instructions.
* `decoded_leaders` joins these for a decoded method, whose regions lie in its code.
-/

namespace OpcodeRecovery

/-! ### Parts of a method -/

lemma Region.lt_tryEnd {r : Region} {o : ℕ} (h : r.inTry o = true) : o < r.tryEnd :=
  (of_decide_eq_true h).2

lemma Region.lt_handlerEnd {r : Region} {o : ℕ} (h : r.inHandler o = true) : o < r.handlerEnd :=
  (of_decide_eq_true h).2

namespace Method

/-- Protected code or a handler starts at the offset. -/
def StartsRegion (m : Method) (o : ℕ) : Prop :=
  ∃ r ∈ m.regions, o = r.tryStart ∨ o = r.handlerStart

/-- Regions that lie in the code reach no offset behind it. -/
lemma lt_codeSize {m : Method}
    (h : ∀ r ∈ m.regions, r.tryEnd ≤ m.codeSize ∧ r.handlerEnd ≤ m.codeSize) {o : ℕ}
    (ho : m.inTry o = true ∨ m.inHandler o = true) : o < m.codeSize := by
  rcases ho with ho | ho
  · obtain ⟨r, hr, hin⟩ := List.any_eq_true.mp ho
    exact (Region.lt_tryEnd hin).trans_le (h r hr).1
  · obtain ⟨r, hr, hin⟩ := List.any_eq_true.mp ho
    exact (Region.lt_handlerEnd hin).trans_le (h r hr).2

/-- What is collected as leaders. Offsets behind the code are dropped. -/
lemma isLeader_ofParts_iff (key : MethodKey) (codeSize : ℕ) (is : List Instruction)
    (regions : List Region) (o : ℕ) :
    (ofParts key codeSize is regions).isLeader o = true
      ↔ o < codeSize ∧ ((∃ i ∈ is.head?, o = i.offset) ∨ (∃ i ∈ is, o ∈ i.targets)
        ∨ (ofParts key codeSize is regions).StartsRegion o) := by
  have hentry : o ∈ (is.head?.map (·.offset)).toList ↔ ∃ i ∈ is.head?, o = i.offset := by
    simp [eq_comm]
  have hregion : o ∈ regions.flatMap (fun r => [r.tryStart, r.handlerStart])
      ↔ (ofParts key codeSize is regions).StartsRegion o := by
    simp [StartsRegion, ofParts]
  rw [isLeader, ofParts, OffsetSet.contains_ofList, List.mem_append, List.mem_append, hentry,
    List.mem_flatMap, hregion, and_comm, or_assoc]
  rfl

end Method

/-! ### Decoded methods -/

/-- A code that is not empty has an instruction at its start. -/
lemma Disassembly.exists_first {table : ShapeTable} {code : Bytes} {is : List Instruction}
    (h : Disassembly table code is) (hpos : 0 < code.length) :
    ∃ i, is.head? = some i ∧ i ∈ is ∧ i.offset = 0 := by
  cases is with
  | nil => simp [h.whole rfl] at hpos
  | cons i is => exact ⟨i, rfl, List.mem_cons_self, h.first i rfl⟩

/-- **The leaders of a decoded method** are the offsets in the code at which it is entered, to which
an instruction leads, or at which protected code or a handler starts; and they are listed in
ascending order. A leader at which no region starts is the start of an instruction. The regions lie
in the code, so no offset behind it stands in protected code or in a handler. -/
theorem decoded_leaders {table : ShapeTable} {stream : Stream} {m : Method}
    (h : decodeMethod table stream = .ok m) :
    (∀ r ∈ m.regions, r.tryStart + r.tryLength ≤ m.codeSize
        ∧ r.handlerStart + r.handlerLength ≤ m.codeSize)
    ∧ (∀ o, m.inTry o = true ∨ m.inHandler o = true → o < m.codeSize)
    ∧ (∀ o, m.isLeader o = true ↔ o < m.codeSize
        ∧ (o = 0 ∨ (∃ i ∈ m.instructions.toList, o ∈ i.targets) ∨ m.StartsRegion o))
    ∧ (∀ o, o ∈ m.leaders ↔ m.isLeader o = true) ∧ m.leaders.Pairwise (· < ·)
    ∧ ∀ o, m.isLeader o = true → ¬ m.StartsRegion o →
        ∃ i ∈ m.instructions.toList, i.offset = o := by
  obtain ⟨code, regions, is, -, hinside, his, rfl⟩ := decodeMethod_eq_ok_iff.mp h
  obtain ⟨is₀, widths, htiles, hread, hsettled⟩ := Decode.exists_settled his
  have hdis := hsettled.disassembly htiles hread
  have hleader : ∀ o, (Method.ofParts stream.key code.length is regions).isLeader o = true
      ↔ o < code.length ∧ (o = 0 ∨ (∃ i ∈ is, o ∈ i.targets)
        ∨ (Method.ofParts stream.key code.length is regions).StartsRegion o) := by
    intro o
    rw [Method.isLeader_ofParts_iff, and_congr_right_iff]
    intro ho
    obtain ⟨first, hhead, -, hzero⟩ := hdis.exists_first (Nat.zero_lt_of_lt ho)
    simp [hhead, hzero]
  refine ⟨hinside, fun o => Method.lt_codeSize hinside, hleader,
    fun o => OffsetSet.mem_toList, OffsetSet.pairwise_toList _, fun o ho hregion => ?_⟩
  obtain ⟨hlt, rfl | ⟨i, hi, htarget⟩ | hstart⟩ := (hleader o).mp ho
  · obtain ⟨first, -, hmem, hzero⟩ := hdis.exists_first hlt
    exact ⟨first, hmem, hzero⟩
  · exact List.mem_map.mp (hdis.landed i hi o htarget)
  · exact absurd hstart hregion

/-- A method whose only region starts inside an instruction, with an empty handler at the end of the
code, and whose second instruction leads to the third. -/
def edgeMethod : Method :=
  Method.ofParts ⟨⟨0x06000001⟩, 7⟩ 7
    [⟨0, 1, 0x01, .none, .declared⟩, ⟨1, 5, 0x30, .branch 6, .declared⟩,
      ⟨6, 1, 0x01, .none, .declared⟩]
    [⟨.finally, 2, 4, 7, 0⟩]

/-- The stream that the method is decoded from. -/
def edgeStream : Stream :=
  ⟨⟨⟨0x06000001⟩, 7⟩, [0x01, 1] ++ [2, 2, 0, 0, 0, 4, 0, 0, 0, 7, 0, 0, 0, 0, 0, 0, 0]
    ++ [0x01] ++ [0x30, 0, 0, 0, 0] ++ [0x01]⟩

/-- The shapes that are declared for it. -/
def edgeTable : ShapeTable := (ShapeTable.default.declare 0x01 .none).declare 0x30 .branch

theorem decoded_leaders_edge :
    decodeMethod edgeTable edgeStream = .ok edgeMethod
      ∧ edgeMethod.leaders = [0, 2, 6] ∧ edgeMethod.leaders.Pairwise (· < ·)
      ∧ (edgeMethod.StartsRegion 7 ∧ ¬ edgeMethod.isLeader 7 = true)
      ∧ ∃ i ∈ edgeMethod.instructions.toList, i.offset = 6 := by
  have hdecode : decodeMethod edgeTable edgeStream = .ok edgeMethod := by decide +kernel
  have hsix : edgeMethod.isLeader 6 = true := by decide +kernel
  have hinner : ¬ edgeMethod.StartsRegion 6 := by
    simp [Method.StartsRegion, edgeMethod, Method.ofParts]
  obtain ⟨-, -, hleader, -, hascending, hstart⟩ := decoded_leaders hdecode
  refine ⟨hdecode, by decide +kernel, hascending, ⟨?_, fun h => ?_⟩, hstart 6 hsix hinner⟩
  · exact ⟨⟨.finally, 2, 4, 7, 0⟩, List.mem_singleton_self _, .inr rfl⟩
  · exact absurd ((hleader 7).mp h).1 (Nat.lt_irrefl 7)

end OpcodeRecovery
