import Mathlib.Tactic
import OpcodeRecovery.Proofs.Code.Faults
import OpcodeRecovery.Proofs.Code.Tiling

/-!
The linear pass over a code, instruction by instruction.

* `Decode.Scanned table code is o memory`: the pass has read the instructions `is`, stands at the
  offset `o`, and remembers the widths `memory`. It is what one more instruction makes of such a
  state, and nothing else.
* What is left to be read is read from there (`Decode.Scanned.scan_eq`), so an instruction that
  cannot be read is what decoding fails with (`Decode.Scanned.decodeCode_eq_error`).
* The pass comes to the end of the code, or to an instruction that it cannot read
  (`Decode.Scanned.ends`). The former is what decoding that succeeds starts with
  (`Decode.exists_scanned_of_ok`), the latter is how it fails, apart from the second look
  (`Decode.exists_scanned_of_error`).
* A width is remembered exactly for the undeclared opcodes of the instructions read
  (`Decode.Scanned.lookup_of_mem`, `Decode.Scanned.mem_of_lookup`).
-/

namespace OpcodeRecovery

namespace Decode

/-- The pass over a code has read some instructions, stands at an offset, and remembers some
widths. -/
inductive Scanned (table : ShapeTable) (code : Bytes) :
    List Instruction → ℕ → Width.Memory → Prop where
  | start : Scanned table code [] 0 []
  | read {is : List Instruction} {o : ℕ} {memory memory' : Width.Memory} {opcode : UInt8}
      {i : Instruction} (h : Scanned table code is o memory) (hopcode : code[o]? = some opcode)
      (hread : instruction table memory ⟨opcode, o, code.length⟩ (code.drop (o + 1))
        = .ok (i, memory')) :
      Scanned table code (is ++ [i]) i.finish memory'

variable {table : ShapeTable} {code : Bytes} {is : List Instruction} {o : ℕ}
  {memory memory' : Width.Memory} {opcode : UInt8} {i : Instruction} {e : Error}

/-! ### One instruction and the rest -/

/-- An instruction that was read takes its opcode at least, and does not leave the code. -/
lemma bounds_of_instruction (hopcode : code[o]? = some opcode)
    (hread : instruction table memory ⟨opcode, o, code.length⟩ (code.drop (o + 1))
      = .ok (i, memory')) :
    i.offset = o ∧ 0 < i.size ∧ i.finish ≤ code.length := by
  obtain ⟨hoffset, hreadAt⟩ := instruction_readAt hopcode hread
  obtain ⟨-, hsize, hfits, -, -⟩ := hreadAt _ (recalls_lookup memory')
  exact ⟨hoffset, by omega, hfits⟩

/-- The pass reads an instruction and goes on behind it. -/
lemma scan_of_instruction (hopcode : code[o]? = some opcode)
    (hread : instruction table memory ⟨opcode, o, code.length⟩ (code.drop (o + 1))
      = .ok (i, memory')) :
    scan table code.length memory o (code.drop o)
      = (scan table code.length memory' i.finish (code.drop i.finish)).map (i :: ·) := by
  obtain ⟨hoffset, hpos, -⟩ := bounds_of_instruction hopcode hread
  obtain ⟨hlt, rfl⟩ := List.getElem?_eq_some_iff.mp hopcode
  have hrest : (code.drop (o + 1)).drop (i.size - 1) = code.drop i.finish := by
    rw [List.drop_drop, Instruction.finish]
    congr 1
    omega
  rw [List.drop_eq_getElem_cons hlt, scan, hread, ok_bind]
  dsimp only
  rw [hrest]
  cases scan table code.length memory' i.finish (code.drop i.finish) <;> rfl

/-- The pass fails at an instruction that cannot be read. -/
lemma scan_of_error (hopcode : code[o]? = some opcode)
    (hfail : instruction table memory ⟨opcode, o, code.length⟩ (code.drop (o + 1)) = .error e) :
    scan table code.length memory o (code.drop o) = .error e := by
  obtain ⟨hlt, rfl⟩ := List.getElem?_eq_some_iff.mp hopcode
  rw [List.drop_eq_getElem_cons hlt, scan, hfail]
  rfl

namespace Scanned

lemma le_length (h : Scanned table code is o memory) : o ≤ code.length := by
  cases h with
  | start => exact Nat.zero_le _
  | read h hopcode hread => exact (bounds_of_instruction hopcode hread).2.2

/-- What is left to be read is read from where the pass stands. -/
lemma scan_eq (h : Scanned table code is o memory) :
    scan table code.length [] 0 code
      = (scan table code.length memory o (code.drop o)).map (is ++ ·) := by
  induction h with
  | start =>
      rw [List.drop_zero]
      cases scan table code.length [] 0 code <;> rfl
  | @read is o memory memory' opcode i h hopcode hread ih =>
      rw [ih, scan_of_instruction hopcode hread]
      cases scan table code.length memory' i.finish (code.drop i.finish) with
      | error e => rfl
      | ok js => simp [Except.map]

/-- An instruction that the pass comes to and cannot read is what decoding fails with. -/
lemma decodeCode_eq_error (h : Scanned table code is o memory) (hopcode : code[o]? = some opcode)
    (hfail : instruction table memory ⟨opcode, o, code.length⟩ (code.drop (o + 1)) = .error e) :
    decodeCode table code = .error e := by
  rw [decodeCode, h.scan_eq, scan_of_error hopcode hfail]
  rfl

/-- An undeclared opcode is remembered once an instruction with it was read, with its width. -/
lemma lookup_of_mem (h : Scanned table code is o memory) (hi : i ∈ is)
    (hnone : table.get? i.opcode = none) :
    ∃ width, memory.lookup i.opcode = some width ∧ i.size = 1 + width.size := by
  induction h with
  | start => cases hi
  | @read is o memory memory' opcode j h hopcode hread ih =>
      rcases List.mem_append.mp hi with hi | hi
      · obtain ⟨width, hw, hsize⟩ := ih hi
        exact ⟨width, lookup_of_instruction hread hw, hsize⟩
      · obtain rfl := List.mem_singleton.mp hi
        rcases instruction_cases hread with ⟨shape, operand, size, hshape, -, rfl, -⟩
          | ⟨width, operand, -, hmemory, -, rfl⟩
        · cases hshape.symm.trans hnone
        · refine ⟨width, ?_, rfl⟩
          rcases hmemory with ⟨hw, rfl⟩ | ⟨-, -, rfl⟩
          · exact hw
          · exact List.lookup_cons_self

/-- Nothing is remembered but undeclared opcodes of instructions that were read. -/
lemma mem_of_lookup (h : Scanned table code is o memory) {width : Width}
    (hw : memory.lookup opcode = some width) :
    table.get? opcode = none ∧ ∃ i ∈ is, i.opcode = opcode ∧ i.size = 1 + width.size := by
  induction h with
  | start => cases hw
  | @read is o memory memory' opcode' i h hopcode hread ih =>
      have hbefore (hw : memory.lookup opcode = some width) : table.get? opcode = none
          ∧ ∃ j ∈ is ++ [i], j.opcode = opcode ∧ j.size = 1 + width.size := by
        obtain ⟨hnone, j, hj, hsame⟩ := ih hw
        exact ⟨hnone, j, List.mem_append_left _ hj, hsame⟩
      rcases instruction_cases hread with ⟨-, -, -, -, -, -, rfl⟩
        | ⟨width', operand, hnone, ⟨-, rfl⟩ | ⟨-, -, rfl⟩, -, rfl⟩
      · exact hbefore hw
      · exact hbefore hw
      · by_cases heq : opcode = opcode'
        · subst heq
          rw [List.lookup_cons_self] at hw
          obtain rfl := Option.some.inj hw
          exact ⟨hnone, _, List.mem_append_right _ (List.mem_singleton_self _), rfl, rfl⟩
        · rw [List.lookup_cons, beq_false_of_ne heq] at hw
          exact hbefore hw

/-- The pass has stood at each instruction that it has read. -/
lemma before {before after : List Instruction} (h : Scanned table code is o memory)
    (his : is = before ++ i :: after) : ∃ memory', Scanned table code before i.offset memory' := by
  induction h generalizing after with
  | start => simp at his
  | @read is o memory memory' opcode j h hopcode hread ih =>
      rcases List.eq_nil_or_concat after with rfl | ⟨after, k, rfl⟩
      · obtain ⟨rfl, hi⟩ := List.append_inj' his rfl
        obtain rfl := (List.cons.inj hi).1
        exact ⟨memory, (bounds_of_instruction hopcode hread).1 ▸ h⟩
      · rw [List.concat_eq_append, ← List.cons_append, ← List.append_assoc] at his
        exact ih (List.append_inj' his rfl).1

/-- Each instruction that the pass has read was read where it stands. -/
lemma read_of_mem (h : Scanned table code is o memory) (hi : i ∈ is) :
    ∃ memory₁ memory₂, instruction table memory₁ ⟨i.opcode, i.offset, code.length⟩
      (code.drop (i.offset + 1)) = .ok (i, memory₂) := by
  induction h with
  | start => cases hi
  | @read is o memory memory' opcode j h hopcode hread ih =>
      rcases List.mem_append.mp hi with hi | hi
      · exact ih hi
      · obtain rfl := List.mem_singleton.mp hi
        obtain ⟨rfl, hreadAt⟩ := instruction_readAt hopcode hread
        have hsame := (hreadAt _ (recalls_lookup memory')).opcode
        obtain rfl := Option.some.inj (hopcode.symm.trans hsame)
        exact ⟨memory, memory', hread⟩

/-- The pass comes to the end of the code, or to an instruction that it cannot read. -/
lemma ends (h : Scanned table code is o memory) :
    (∃ js memory', Scanned table code (is ++ js) code.length memory'
        ∧ scan table code.length memory o (code.drop o) = .ok js)
      ∨ ∃ js o' memory' opcode e, Scanned table code (is ++ js) o' memory'
        ∧ code[o']? = some opcode
        ∧ instruction table memory' ⟨opcode, o', code.length⟩ (code.drop (o' + 1)) = .error e
        ∧ scan table code.length memory o (code.drop o) = .error e := by
  -- each instruction that is read leaves less of the code
  induction hn : code.length - o using Nat.strong_induction_on generalizing is o memory with
  | _ n ih =>
      rcases Nat.lt_or_eq_of_le h.le_length with hlt | rfl
      · have hopcode : code[o]? = some code[o] := List.getElem?_eq_getElem hlt
        cases hread : instruction table memory ⟨code[o], o, code.length⟩ (code.drop (o + 1)) with
        | error e =>
            refine .inr ⟨[], o, memory, code[o], e, ?_, hopcode, hread, scan_of_error hopcode hread⟩
            rwa [List.append_nil]
        | ok r =>
            obtain ⟨i, memory'⟩ := r
            obtain ⟨hoffset, hpos, -⟩ := bounds_of_instruction hopcode hread
            have hless : code.length - i.finish < n := by
              rw [Instruction.finish]
              omega
            rw [scan_of_instruction hopcode hread]
            rcases ih _ hless (h.read hopcode hread) rfl with ⟨js, memory'', hjs, hscan⟩
              | ⟨js, o', memory'', opcode, e, hjs, hopcode', hfail, hscan⟩
            · rw [List.append_assoc] at hjs
              refine .inl ⟨i :: js, memory'', hjs, ?_⟩
              rw [hscan]
              rfl
            · rw [List.append_assoc] at hjs
              refine .inr ⟨i :: js, o', memory'', opcode, e, hjs, hopcode', hfail, ?_⟩
              rw [hscan]
              rfl
      · refine .inl ⟨[], memory, ?_, ?_⟩
        · rwa [List.append_nil]
        · rw [List.drop_length, scan]

end Scanned

/-- Decoding that succeeds settles what a pass to the end of the code has read. -/
lemma exists_scanned_settled {js : List Instruction} (h : decodeCode table code = .ok js) :
    ∃ is memory widths, Scanned table code is code.length memory ∧ Tiles 0 is code.length
      ∧ (∀ i ∈ is, ReadAt table widths code i) ∧ Settled code is js := by
  obtain ⟨is, hscan, hsettle⟩ := bind_eq_ok_iff.mp h
  obtain ⟨htiles, widths, -, hread⟩ := scan_tiles (Nat.zero_le _) hscan
  rcases (Scanned.start : Scanned table code [] 0 []).ends with ⟨is', memory, his, hscan'⟩
    | ⟨-, -, -, -, e, -, -, -, hscan'⟩
  · rw [List.drop_zero, hscan] at hscan'
    obtain rfl := Except.ok.inj hscan'
    exact ⟨is, memory, widths, his, htiles, hread, mapM_eq_ok_iff.mp hsettle⟩
  · rw [List.drop_zero, hscan] at hscan'
    cases hscan'

lemma exists_scanned_of_ok {js : List Instruction} (h : decodeCode table code = .ok js) :
    ∃ is memory, Scanned table code is code.length memory
      ∧ List.Forall₂ Instruction.Alike is js := by
  obtain ⟨is, memory, -, hscanned, -, -, hsettled⟩ := exists_scanned_settled h
  exact ⟨is, memory, hscanned, hsettled.alike⟩

/-- Decoding that fails does so at an instruction that cannot be read, or at the second look. -/
lemma exists_scanned_of_error (h : decodeCode table code = .error e) :
    (∃ is o memory opcode, Scanned table code is o memory ∧ code[o]? = some opcode
        ∧ instruction table memory ⟨opcode, o, code.length⟩ (code.drop (o + 1)) = .error e)
      ∨ ∃ opcode o t, e = .format (.targetInside opcode o t) := by
  rcases bind_eq_error h with hscan | ⟨is, -, hsettle⟩
  · rcases (Scanned.start : Scanned table code [] 0 []).ends with ⟨is, memory, -, hscan'⟩
      | ⟨is, o, memory, opcode, e', his, hopcode, hfail, hscan'⟩
    · rw [List.drop_zero, hscan] at hscan'
      cases hscan'
    · rw [List.drop_zero, hscan] at hscan'
      obtain rfl := Except.error.inj hscan'
      exact .inl ⟨is, o, memory, opcode, his, hopcode, hfail⟩
  · exact .inr (settle_fails _ is e hsettle)

end Decode

end OpcodeRecovery
