import Mathlib.Tactic
import OpcodeRecovery.Proofs.Code.Scanning

/-!
How the width of an undeclared opcode is inferred, and why the decoder then reads what was seen by
looking ahead.

* `Decode.KnownAt` is the size of an operand that can be told from the table and from the
  instructions read before, `Decode.Walk` is a walk over such operands, and `Decode.Lookahead` is
  the longest one up to four instructions, with the number that it counts for. The support of a
  place is this number (`Decode.Scanned.lookahead_iff`).
* `Width.FirstBest`: the width is the first among those that fit with the largest support.
  `Width.infer_firstBest` says that this one is chosen.
* Where the size of an operand is known and it fits, it is read and has that size, unless it leads
  out of the code (`Decode.instruction_of_knownSize?`). So the instructions of a walk are read
  (`Decode.Scanned.follow`).
* `Decode.width_inferred` says all of this of the first occurrence of an undeclared opcode, and that
  an operand of an undeclared opcode overruns the code at a later occurrence only.
-/

namespace OpcodeRecovery

variable {table : ShapeTable} {memory : Width.Memory}

namespace Width

/-! ### The first best candidate -/

/-- The width is the first of the candidates that fit and have the largest support. -/
structure FirstBest (fit : Width → Prop) (support : Width → ℕ) (width : Width) : Prop where
  fits : fit width
  most : ∀ v, fit v → support v ≤ support width
  first : ∃ before after, candidates = before ++ width :: after
    ∧ ∀ v ∈ before, fit v → support v < support width

/-- The best candidate with its support, after some were tried: none of those that fit has more, and
it is the first one that has as much, if there is any support. -/
structure Leads (table : ShapeTable) (memory : Memory) (operand : Bytes) (tried : List Width)
    (best : ℕ × Width) : Prop where
  most : ∀ v ∈ tried, v.size ≤ operand.length →
    support table memory lookahead (operand.drop v.size) ≤ best.1
  first : best = (0, zero) ∨ ∃ before after, tried = before ++ best.2 :: after
    ∧ best.2.size ≤ operand.length
    ∧ best.1 = support table memory lookahead (operand.drop best.2.size)
    ∧ ∀ v ∈ before, v.size ≤ operand.length →
      support table memory lookahead (operand.drop v.size) < best.1

namespace Leads

variable {operand : Bytes} {best : ℕ × Width} {tried : List Width}

/-- Trying one more candidate. -/
lemma better (h : Leads table memory operand tried best) (w : Width) :
    Leads table memory operand (tried ++ [w]) (better table memory operand best w) := by
  by_cases hbeats : w.size ≤ operand.length
      ∧ best.1 < support table memory lookahead (operand.drop w.size)
  · obtain ⟨hfit, hmore⟩ := hbeats
    have hless (v : Width) (hv : v ∈ tried) (hvfit : v.size ≤ operand.length) :
        support table memory lookahead (operand.drop v.size)
          < support table memory lookahead (operand.drop w.size) :=
      (h.most v hv hvfit).trans_lt hmore
    rw [Width.better, if_pos hfit]
    dsimp only
    rw [if_pos hmore]
    refine ⟨fun v hv hvfit => ?_, .inr ⟨tried, [], rfl, hfit, rfl, hless⟩⟩
    rcases List.mem_append.mp hv with hv | hv
    · exact (hless v hv hvfit).le
    · rw [List.mem_singleton.mp hv]
  · have hless (hfit : w.size ≤ operand.length) :
        support table memory lookahead (operand.drop w.size) ≤ best.1 :=
      Nat.le_of_not_lt fun hmore => hbeats ⟨hfit, hmore⟩
    have hkept : Width.better table memory operand best w = best := by
      rw [Width.better]
      split_ifs with hfit
      · exact if_neg (Nat.not_lt.mpr (hless hfit))
      · rfl
    rw [hkept]
    constructor
    · intro v hv hvfit
      rcases List.mem_append.mp hv with hv | hv
      · exact h.most v hv hvfit
      · obtain rfl := List.mem_singleton.mp hv
        exact hless hvfit
    · refine h.first.imp_right ?_
      rintro ⟨before, after, rfl, hbest⟩
      exact ⟨before, after ++ [w], by simp, hbest⟩

/-- Trying some candidates in a row. -/
lemma foldl (h : Leads table memory operand tried best) (ws : List Width) :
    Leads table memory operand (tried ++ ws)
      (ws.foldl (Width.better table memory operand) best) := by
  induction ws generalizing tried best with
  | nil => rwa [List.append_nil]
  | cons w ws ih =>
      rw [List.foldl_cons, ← List.singleton_append, ← List.append_assoc]
      exact ih (h.better w)

end Leads

/-- The first best candidate is chosen. -/
lemma infer_firstBest (table : ShapeTable) (memory : Memory) (operand : Bytes) :
    FirstBest (·.size ≤ operand.length)
      (fun v => support table memory lookahead (operand.drop v.size))
      (infer table memory operand) := by
  have hstart : Leads table memory operand [] (0, zero) := ⟨by simp, .inl rfl⟩
  have hleads := hstart.foldl candidates
  have hall (v : Width) : v ∈ candidates := by cases v <;> decide
  rw [infer]
  generalize candidates.foldl (Width.better table memory operand) (0, zero) = best at hleads ⊢
  rcases hleads.first with rfl | ⟨before, after, hcandidates, hfit, hbest, hbefore⟩
  · -- no candidate has support, and the empty operand is the first of them
    refine ⟨Nat.zero_le _, fun v hv => ?_, [], _, rfl, by simp⟩
    exact (hleads.most v (hall v) hv).trans (Nat.zero_le _)
  · refine ⟨hfit, fun v hv => ?_, before, after, hcandidates, fun v hv hvfit => ?_⟩
    · exact (hleads.most v (hall v) hv).trans_eq hbest
    · exact (hbefore v hv hvfit).trans_eq hbest

/-- A first best candidate without support is the empty operand. -/
lemma FirstBest.eq_zero {fit : Width → Prop} {support : Width → ℕ} {width : Width}
    (h : FirstBest fit support width) (hzero : fit zero) (hnone : support width = 0) :
    width = zero := by
  obtain ⟨before, after, hcandidates, hbefore⟩ := h.first
  cases before with
  | nil => exact (List.cons.inj hcandidates).1.symm
  | cons v before =>
      obtain rfl : zero = v := (List.cons.inj hcandidates).1
      have hless := hbefore zero List.mem_cons_self hzero
      omega

/-! ### Known sizes -/

/-- The size of an operand is known if its shape is declared and fixes it, if it is a switch whose
count is there, or if its width was inferred before. -/
lemma knownSize?_eq_some_iff {opcode : UInt8} {operand : Bytes} {n : ℕ} :
    knownSize? table memory opcode operand = some n
      ↔ (∃ shape, table.get? opcode = some shape ∧ shape.fixedSize? = some n)
        ∨ (∃ count rest, table.get? opcode = some .switch
          ∧ Bytes.number? 4 operand = some (count, rest) ∧ n = 4 + 4 * count)
        ∨ ∃ width : Width, table.get? opcode = none ∧ memory.lookup opcode = some width
          ∧ n = width.size := by
  rw [knownSize?]
  cases table.get? opcode with
  | none => simp [eq_comm]
  | some shape => cases shape <;> simp [OperandShape.fixedSize?, eq_comm]

end Width

namespace Decode

/-! ### An operand of known size is read -/

section Operands

variable {p : Place} {bs : Bytes} {n : ℕ}

lemma operandBytes_of_le (before : ℕ) (h : n ≤ bs.length) :
    operandBytes p before n bs = .ok (bs.take n, bs.drop n) :=
  operandBytes_eq_ok_iff.mpr ⟨(List.take_append_drop n bs).symm, List.length_take_of_le h⟩

/-- An operand of a fixed size is read if it fits, unless it is a branch that leads out. -/
lemma declaredOperand_of_fixedSize? {shape : OperandShape} (hn : shape.fixedSize? = some n)
    (hfit : n ≤ bs.length) :
    (∃ operand, declaredOperand p bs shape = .ok (operand, n))
      ∨ ∃ e, declaredOperand p bs shape = .error e ∧ LeadsOut p e := by
  cases shape with
  | switch => cases hn
  | none =>
      obtain rfl := Option.some.inj hn
      exact .inl ⟨_, rfl⟩
  | byte | int32 | int64 | token =>
      obtain rfl := Option.some.inj hn
      rw [declaredOperand, operandBytes_of_le 1 hfit]
      exact .inl ⟨_, rfl⟩
  | branch =>
      obtain rfl := Option.some.inj hn
      rw [declaredOperand, operandBytes_of_le 1 hfit, ok_bind]
      dsimp only
      cases htarget : target p (p.offset + 5) (int32 (bs.take 4)) with
      | ok t => exact .inl ⟨_, rfl⟩
      | error e => exact .inr ⟨e, rfl, target_fails _ _ _ e htarget⟩

/-- A switch is read if its targets fit, unless one of them leads out. -/
lemma declaredOperand_of_count {count : ℕ} {rest : Bytes}
    (hcount : Bytes.number? 4 bs = some (count, rest)) (hfit : 4 + 4 * count ≤ bs.length) :
    (∃ operand, declaredOperand p bs .switch = .ok (operand, 4 + 4 * count))
      ∨ ∃ e, declaredOperand p bs .switch = .error e ∧ LeadsOut p e := by
  obtain rfl : Bytes.toNatLE (bs.take 4) = count := by
    rw [Bytes.number?, Bytes.split?, if_pos (by omega)] at hcount
    exact (Prod.mk.inj (Option.some.inj hcount)).1
  have hrest : 4 * Bytes.toNatLE (bs.take 4) ≤ (bs.drop 4).length := by
    rw [List.length_drop]
    omega
  rw [declaredOperand, operandBytes_of_le 1 (by omega), ok_bind]
  dsimp only
  rw [operandBytes_of_le 5 hrest, ok_bind]
  dsimp only
  cases htargets : targets p (p.offset + 5 + 4 * Bytes.toNatLE (bs.take 4))
      (Bytes.toNatLE (bs.take 4)) ((bs.drop 4).take (4 * Bytes.toNatLE (bs.take 4))) with
  | ok ts => exact .inl ⟨_, rfl⟩
  | error e => exact .inr ⟨e, rfl, targets_fails _ _ _ _ e htargets⟩

/-- An operand of an inferred width is read if it fits. -/
lemma inferredOperand_of_le (p : Place) {width : Width} (hfit : width.size ≤ bs.length) :
    ∃ operand, inferredOperand p bs width = .ok operand := by
  rw [inferredOperand, operandBytes_of_le 1 hfit]
  cases width <;> exact ⟨_, rfl⟩

/-- An undeclared opcode that was not met before is read with the inferred width. -/
lemma instruction_of_unmet (p : Place) (bs : Bytes) (hnone : table.get? p.opcode = none)
    (hunmet : memory.lookup p.opcode = none) :
    ∃ operand, instruction table memory p bs
      = .ok (⟨p.offset, 1 + (Width.infer table memory bs).size, p.opcode, operand, .inferred⟩,
        (p.opcode, Width.infer table memory bs) :: memory) := by
  obtain ⟨operand, hoperand⟩ :=
    inferredOperand_of_le p (Width.infer_firstBest table memory bs).fits
  refine ⟨operand, ?_⟩
  rw [instruction, hnone]
  dsimp only
  rw [hunmet]
  dsimp only
  rw [hoperand]
  rfl

/-- A declared opcode is read with its operand, or fails with it. -/
lemma instruction_of_declaredOperand {shape : OperandShape}
    (hshape : table.get? p.opcode = some shape)
    (hread : (∃ operand, declaredOperand p bs shape = .ok (operand, n))
      ∨ ∃ e, declaredOperand p bs shape = .error e ∧ LeadsOut p e) :
    (∃ i memory', instruction table memory p bs = .ok (i, memory') ∧ i.offset = p.offset
        ∧ i.size = 1 + n)
      ∨ ∃ e, instruction table memory p bs = .error e ∧ LeadsOut p e := by
  rw [instruction, hshape]
  dsimp only
  rcases hread with ⟨operand, hread⟩ | ⟨e, hread, hout⟩
  · rw [hread]
    exact .inl ⟨_, _, rfl, rfl, rfl⟩
  · rw [hread]
    exact .inr ⟨e, rfl, hout⟩

/-- **The decoder agrees with the lookahead**: an operand whose size is known is read with that size
if it fits, unless it leads out of the code. -/
lemma instruction_of_knownSize? (hknown : Width.knownSize? table memory p.opcode bs = some n)
    (hfit : n ≤ bs.length) :
    (∃ i memory', instruction table memory p bs = .ok (i, memory') ∧ i.offset = p.offset
        ∧ i.size = 1 + n)
      ∨ ∃ e, instruction table memory p bs = .error e ∧ LeadsOut p e := by
  rcases Width.knownSize?_eq_some_iff.mp hknown with ⟨shape, hshape, hsize⟩
    | ⟨count, rest, hshape, hcount, rfl⟩ | ⟨width, hnone, hmet, rfl⟩
  · exact instruction_of_declaredOperand hshape (declaredOperand_of_fixedSize? hsize hfit)
  · exact instruction_of_declaredOperand hshape (declaredOperand_of_count hcount hfit)
  · obtain ⟨operand, hoperand⟩ := inferredOperand_of_le p hfit
    rw [instruction, hnone]
    dsimp only
    rw [hmet]
    dsimp only
    rw [hoperand]
    exact .inl ⟨_, _, rfl, rfl, rfl⟩

end Operands

/-! ### Looking ahead -/

/-- The pass over a code has read some instructions and stands at an offset. -/
def Reads (table : ShapeTable) (code : Bytes) (is : List Instruction) (o : ℕ) : Prop :=
  ∃ memory, Scanned table code is o memory

/-- At a place of the code stands an opcode whose operand is known to have a size: its shape is
declared, or it is the opcode of an instruction that was read before. A switch announces its size
itself. -/
inductive KnownAt (table : ShapeTable) (code : Bytes) (is : List Instruction) (p : ℕ) :
    ℕ → Prop where
  | fixed {opcode : UInt8} {shape : OperandShape} {n : ℕ} (hopcode : code[p]? = some opcode)
      (hshape : table.get? opcode = some shape) (hn : shape.fixedSize? = some n) :
      KnownAt table code is p n
  | switch {opcode : UInt8} {count : ℕ} {rest : Bytes} (hopcode : code[p]? = some opcode)
      (hshape : table.get? opcode = some .switch)
      (hcount : Bytes.number? 4 (code.drop (p + 1)) = some (count, rest)) :
      KnownAt table code is p (4 + 4 * count)
  | met {i : Instruction} {n : ℕ} (hopcode : code[p]? = some i.opcode)
      (hnone : table.get? i.opcode = none) (hi : i ∈ is) (hn : i.size = 1 + n) :
      KnownAt table code is p n

/-- A walk from one place to another over instructions of known size that fit, which start at the
given offsets. -/
inductive Walk (table : ShapeTable) (code : Bytes) (is : List Instruction) :
    ℕ → List ℕ → ℕ → Prop where
  | nil (p : ℕ) : Walk table code is p [] p
  | cons {p n q : ℕ} {ps : List ℕ} (hknown : KnownAt table code is p n)
      (hfit : p + 1 + n ≤ code.length) (h : Walk table code is (p + 1 + n) ps q) :
      Walk table code is p (p :: ps) q

/-- The walk from a place that goes on as long as it can, over four instructions at most. It counts
for its instructions, and for four if it meets the end of the code. -/
structure Lookahead (table : ShapeTable) (code : Bytes) (is : List Instruction) (p : ℕ)
    (ps : List ℕ) (q s : ℕ) : Prop where
  walk : Walk table code is p ps q
  length_le : ps.length ≤ Width.lookahead
  stops : ps.length = Width.lookahead ∨ ∀ n, KnownAt table code is q n → code.length < q + 1 + n
  count : s = if q = code.length then Width.lookahead else ps.length

section Places

variable {code : Bytes} {is js : List Instruction} {o p q n s : ℕ} {ps : List ℕ}

lemma KnownAt.mono (h : KnownAt table code is p n) (hsub : is ⊆ js) :
    KnownAt table code js p n := by
  cases h with
  | fixed hopcode hshape hn => exact .fixed hopcode hshape hn
  | switch hopcode hshape hcount => exact .switch hopcode hshape hcount
  | met hopcode hnone hi hn => exact .met hopcode hnone (hsub hi) hn

/-- What is known at a place is what the pass can tell with the widths it remembers. -/
lemma Scanned.knownAt_iff (h : Scanned table code is o memory) :
    KnownAt table code is p n ↔ ∃ opcode, code[p]? = some opcode
      ∧ Width.knownSize? table memory opcode (code.drop (p + 1)) = some n := by
  simp only [Width.knownSize?_eq_some_iff]
  constructor
  · rintro (⟨hopcode, hshape, hn⟩ | ⟨hopcode, hshape, hcount⟩ | ⟨hopcode, hnone, hi, hn⟩)
    · exact ⟨_, hopcode, .inl ⟨_, hshape, hn⟩⟩
    · exact ⟨_, hopcode, .inr (.inl ⟨_, _, hshape, hcount, rfl⟩)⟩
    · obtain ⟨width, hw, hsize⟩ := h.lookup_of_mem hi hnone
      exact ⟨_, hopcode, .inr (.inr ⟨width, hnone, hw, by omega⟩)⟩
  · rintro ⟨opcode, hopcode, ⟨shape, hshape, hn⟩ | ⟨count, rest, hshape, hcount, rfl⟩
      | ⟨width, hnone, hw, rfl⟩⟩
    · exact .fixed hopcode hshape hn
    · exact .switch hopcode hshape hcount
    · obtain ⟨-, i, hi, rfl, hsize⟩ := h.mem_of_lookup hw
      exact .met hopcode hnone hi hsize

/-- The support of a place where an instruction is known and fits: one more than behind it. -/
lemma Scanned.support_of_knownAt (h : Scanned table code is o memory)
    (hknown : KnownAt table code is p n) (hfit : p + 1 + n ≤ code.length) (m : ℕ) :
    Width.support table memory (m + 1) (code.drop p)
      = 1 + Width.support table memory m (code.drop (p + 1 + n)) := by
  obtain ⟨opcode, hopcode, hsize⟩ := h.knownAt_iff.mp hknown
  obtain ⟨hlt, rfl⟩ := List.getElem?_eq_some_iff.mp hopcode
  rw [List.drop_eq_getElem_cons hlt, Width.support, hsize]
  dsimp only
  rw [if_pos (by rw [List.length_drop]; omega), List.drop_drop]

/-- The support of a place where a walk stops before the end of the code. -/
lemma Scanned.support_of_stuck (h : Scanned table code is o memory) (hp : p < code.length)
    (hstuck : ∀ n, KnownAt table code is p n → code.length < p + 1 + n) (m : ℕ) :
    Width.support table memory m (code.drop p) = 0 := by
  cases m with
  | zero => rw [Width.support]
  | succ m =>
      rw [List.drop_eq_getElem_cons hp, Width.support]
      cases hsize : Width.knownSize? table memory code[p] (code.drop (p + 1)) with
      | none => rfl
      | some n =>
          have hlong := hstuck n (h.knownAt_iff.mpr ⟨_, List.getElem?_eq_getElem hp, hsize⟩)
          exact if_neg (by rw [List.length_drop]; omega)

/-- The support of a place from which a walk is possible. -/
lemma Scanned.support_of_walk (h : Scanned table code is o memory)
    (hwalk : Walk table code is p ps q) {m : ℕ} (hm : ps.length ≤ m) :
    Width.support table memory m (code.drop p)
      = ps.length + Width.support table memory (m - ps.length) (code.drop q) := by
  induction hwalk generalizing m with
  | nil p => rw [List.length_nil, Nat.zero_add, Nat.sub_zero]
  | @cons p n q ps hknown hfit hwalk ih =>
      rw [List.length_cons] at hm ⊢
      obtain ⟨m, rfl⟩ : ∃ k, m = k + 1 := ⟨m - 1, by omega⟩
      rw [h.support_of_knownAt hknown hfit, ih (by omega), Nat.add_sub_add_right]
      omega

lemma Walk.le_length (h : Walk table code is p ps q) (hp : p ≤ code.length) : q ≤ code.length := by
  induction h with
  | nil p => exact hp
  | cons hknown hfit h ih => exact ih hfit

/-- A walk that goes on as long as it can, over a number of instructions at most. -/
lemma exists_walk (table : ShapeTable) (code : Bytes) (is : List Instruction) (m p : ℕ) :
    ∃ ps q, Walk table code is p ps q ∧ ps.length ≤ m
      ∧ (ps.length = m ∨ ∀ n, KnownAt table code is q n → code.length < q + 1 + n) := by
  induction m generalizing p with
  | zero => exact ⟨[], p, .nil p, Nat.le_refl 0, .inl rfl⟩
  | succ m ih =>
      by_cases hgo : ∃ n, KnownAt table code is p n ∧ p + 1 + n ≤ code.length
      · obtain ⟨n, hknown, hfit⟩ := hgo
        obtain ⟨ps, q, hwalk, hle, hstops⟩ := ih (p + 1 + n)
        exact ⟨p :: ps, q, .cons hknown hfit hwalk, Nat.succ_le_succ hle,
          hstops.imp_left (congrArg Nat.succ)⟩
      · refine ⟨[], p, .nil p, Nat.zero_le _, .inr fun n hknown => ?_⟩
        exact Nat.lt_of_not_le fun hfit => hgo ⟨n, hknown, hfit⟩

/-- The support of a place is what the walk from there counts for. -/
lemma Scanned.lookahead_iff (h : Scanned table code is o memory) (hp : p ≤ code.length) :
    (∃ ps q, Lookahead table code is p ps q s)
      ↔ s = Width.support table memory Width.lookahead (code.drop p) := by
  have hcount {ps q} (hwalk : Walk table code is p ps q) (hle : ps.length ≤ Width.lookahead)
      (hstops : ps.length = Width.lookahead
        ∨ ∀ n, KnownAt table code is q n → code.length < q + 1 + n) :
      (if q = code.length then Width.lookahead else ps.length)
        = Width.support table memory Width.lookahead (code.drop p) := by
    rw [h.support_of_walk hwalk hle]
    split_ifs with hq
    · subst hq
      rw [List.drop_length]
      rcases Nat.eq_zero_or_pos (Width.lookahead - ps.length) with hzero | hpos
      · rw [hzero, Width.support]
        omega
      · obtain ⟨m, hm⟩ : ∃ m, Width.lookahead - ps.length = m + 1 :=
          ⟨_, (Nat.succ_pred_eq_of_pos hpos).symm⟩
        rw [hm, Width.support]
        omega
    · rcases hstops with hfull | hstuck
      · rw [hfull, Nat.sub_self, Width.support]
        rfl
      · rw [h.support_of_stuck (Nat.lt_of_le_of_ne (hwalk.le_length hp) hq) hstuck]
        rfl
  constructor
  · rintro ⟨ps, q, hahead⟩
    rw [hahead.count, hcount hahead.walk hahead.length_le hahead.stops]
  · rintro rfl
    obtain ⟨ps, q, hwalk, hle, hstops⟩ := exists_walk table code is Width.lookahead p
    exact ⟨ps, q, hwalk, hle, hstops, (hcount hwalk hle hstops).symm⟩

/-! ### Reading what was seen -/

/-- Where an instruction is known and fits, the pass reads it with that size, or decoding fails
since it leads out of the code. -/
lemma Scanned.read_known (h : Scanned table code is o memory) (hknown : KnownAt table code is o n)
    (hfit : o + 1 + n ≤ code.length) :
    (∃ i, i.offset = o ∧ Reads table code (is ++ [i]) (o + 1 + n))
      ∨ ∃ opcode t, decodeCode table code
        = .error (.format (.targetOutside t opcode o code.length)) := by
  obtain ⟨opcode, hopcode, hsize⟩ := h.knownAt_iff.mp hknown
  have hlen : n ≤ (code.drop (o + 1)).length := by
    rw [List.length_drop]
    omega
  rcases instruction_of_knownSize? (p := ⟨opcode, o, code.length⟩) hsize hlen with
    ⟨i, memory', hread, hoffset, hsize⟩ | ⟨e, hfail, t, rfl⟩
  · refine .inl ⟨i, hoffset, memory', ?_⟩
    have hfinish : i.finish = o + 1 + n := by
      rw [Instruction.finish, hoffset, hsize, Nat.add_assoc]
    exact hfinish ▸ h.read hopcode hread
  · exact .inr ⟨opcode, t, h.decodeCode_eq_error hopcode hfail⟩

/-- The instructions of a walk are read, at the offsets that it visits, unless one of them leads out
of the code. -/
lemma Reads.follow (h : Reads table code js p) (hwalk : Walk table code is p ps q)
    (hsub : is ⊆ js) :
    (∃ ks, ks.map Instruction.offset = ps ∧ Reads table code (js ++ ks) q)
      ∨ ∃ ks p' opcode t, ks.map Instruction.offset ++ [p'] <+: ps
        ∧ Reads table code (js ++ ks) p'
        ∧ decodeCode table code = .error (.format (.targetOutside t opcode p' code.length)) := by
  induction hwalk generalizing js with
  | nil p => exact .inl ⟨[], rfl, by rwa [List.append_nil]⟩
  | @cons p n q ps hknown hfit hwalk ih =>
      obtain ⟨memory, hscanned⟩ := h
      rcases hscanned.read_known (hknown.mono hsub) hfit with ⟨i, rfl, hread⟩ | ⟨opcode, t, hfail⟩
      · rcases ih hread (List.Subset.trans hsub (List.subset_append_left js [i])) with
          ⟨ks, rfl, hks⟩ | ⟨ks, p', opcode, t, hprefix, hks, hfail⟩
        · refine .inl ⟨i :: ks, rfl, ?_⟩
          rwa [List.append_assoc] at hks
        · refine .inr ⟨i :: ks, p', opcode, t, List.cons_prefix_cons.mpr ⟨rfl, hprefix⟩, ?_, hfail⟩
          rwa [List.append_assoc] at hks
      · refine .inr ⟨[], p, opcode, t, ⟨ps, rfl⟩, ?_, hfail⟩
        rw [List.append_nil]
        exact ⟨memory, hscanned⟩

/-- An operand of an undeclared opcode overruns the code only if its width was inferred before. -/
lemma exists_met_of_overrun {opcode : UInt8} {needed remaining : ℕ}
    (h : decodeCode table code = .error (.format (.operandOverrun opcode o needed remaining)))
    (hnone : table.get? opcode = none) :
    ∃ is, Reads table code is o ∧ code[o]? = some opcode ∧ ∃ i ∈ is, i.opcode = opcode := by
  rcases exists_scanned_of_error h with ⟨is, o', memory, opcode', hscanned, hopcode, hfail⟩
    | ⟨opcode', o', t, hinside⟩
  · have hfault := instruction_fails memory ⟨opcode', o', code.length⟩ (code.drop (o' + 1)) _ hfail
    cases hfault with
    | outside hout =>
        obtain ⟨t, hout⟩ := hout
        cases hout
    | overrun needed remaining =>
        refine ⟨is, ⟨memory, hscanned⟩, hopcode, ?_⟩
        cases hmet : memory.lookup opcode' with
        | some width =>
            obtain ⟨-, i, hi, hsame, -⟩ := hscanned.mem_of_lookup hmet
            exact ⟨i, hi, hsame⟩
        | none =>
            -- a width that is inferred here fits
            obtain ⟨operand, hread⟩ := instruction_of_unmet ⟨opcode', o', code.length⟩
              (code.drop (o' + 1)) hnone hmet
            cases hfail.symm.trans hread
  · cases hinside

end Places

/-- **An undeclared opcode is inferred to have the width with the most support, and what supports it
is read**. Where the pass meets an undeclared opcode for the first time, let `S p` be what the
lookahead from a place `p` counts for. The instruction is read, with the first width among those
that fit for which `S` is largest behind the operand; it is empty if there is no support. Then the
instructions that the lookahead has visited are read at the same offsets, unless one of them leads
out of the code. An operand of an undeclared opcode overruns the code only if the opcode was met
before. All instructions of a decoded code are read by such a pass. -/
theorem width_inferred (table : ShapeTable) (code : Bytes) :
    (∀ is o opcode, Reads table code is o → code[o]? = some opcode → table.get? opcode = none →
      (∀ i ∈ is, i.opcode ≠ opcode) →
      ∃ (S : ℕ → ℕ) (width : Width) (i : Instruction),
        (∀ p ≤ code.length, ∀ s, (∃ ps q, Lookahead table code is p ps q s) ↔ s = S p)
        ∧ Width.FirstBest (fun v => o + 1 + v.size ≤ code.length) (fun v => S (o + 1 + v.size))
          width
        ∧ (S (o + 1 + width.size) = 0 → width = .zero)
        ∧ i.offset = o ∧ i.opcode = opcode ∧ i.size = 1 + width.size ∧ i.source = .inferred
        ∧ Reads table code (is ++ [i]) (o + 1 + width.size)
        ∧ ∀ ps q, Lookahead table code is (o + 1 + width.size) ps q (S (o + 1 + width.size)) →
          (∃ js, js.map Instruction.offset = ps ∧ Reads table code (is ++ i :: js) q)
          ∨ ∃ js p opcode' t, js.map Instruction.offset ++ [p] <+: ps
            ∧ Reads table code (is ++ i :: js) p
            ∧ decodeCode table code = .error (.format (.targetOutside t opcode' p code.length)))
    ∧ (∀ opcode o needed remaining,
        decodeCode table code = .error (.format (.operandOverrun opcode o needed remaining)) →
        table.get? opcode = none →
        ∃ is, Reads table code is o ∧ code[o]? = some opcode ∧ ∃ i ∈ is, i.opcode = opcode)
    ∧ ∀ ms, decodeCode table code = .ok ms →
      ∃ is, List.Forall₂ Instruction.Alike is ms ∧ Reads table code is code.length
        ∧ ∀ before i after, is = before ++ i :: after → Reads table code before i.offset := by
  refine ⟨?_, fun opcode o needed remaining => exists_met_of_overrun, ?_⟩
  · rintro is o opcode ⟨memory, hscanned⟩ hopcode hnone hunmet
    have hlt : o < code.length := (List.getElem?_eq_some_iff.mp hopcode).1
    have hmemory : memory.lookup opcode = none := by
      refine Option.eq_none_iff_forall_ne_some.mpr fun width hw => ?_
      obtain ⟨-, i, hi, hsame, -⟩ := hscanned.mem_of_lookup hw
      exact hunmet i hi hsame
    have hbest := Width.infer_firstBest table memory (code.drop (o + 1))
    obtain ⟨operand, hread⟩ :=
      instruction_of_unmet ⟨opcode, o, code.length⟩ (code.drop (o + 1)) hnone hmemory
    generalize Width.infer table memory (code.drop (o + 1)) = width at hbest hread
    -- the support counts from the byte behind the opcode, `S` from the start of the code
    simp only [List.drop_drop, List.length_drop] at hbest
    have hfit (v : Width) : v.size ≤ code.length - (o + 1) ↔ o + 1 + v.size ≤ code.length := by
      omega
    simp only [hfit] at hbest
    have hnext : Reads table code (is ++ [⟨o, 1 + width.size, opcode, operand, .inferred⟩])
        (o + 1 + width.size) := by
      rw [Nat.add_assoc]
      exact ⟨_, hscanned.read hopcode hread⟩
    refine ⟨fun p => Width.support table memory Width.lookahead (code.drop p), width, _,
      fun p hp s => hscanned.lookahead_iff hp, hbest, hbest.eq_zero hlt, rfl, rfl, rfl,
      rfl, hnext, ?_⟩
    intro ps q hahead
    simpa only [List.append_assoc, List.singleton_append]
      using hnext.follow hahead.walk (List.subset_append_left _ _)
  · intro ms hms
    obtain ⟨is, memory, hscanned, halike⟩ := exists_scanned_of_ok hms
    exact ⟨is, halike, ⟨memory, hscanned⟩, fun before i after his => hscanned.before his⟩

/-- The undeclared opcode of the loop is met behind the switch, and only an operand of four bytes
has support. A second one that lacks its operand overruns the code. -/
theorem width_inferred_loop :
    (∃ i, i.offset = 13 ∧ i.opcode = 0x50 ∧ i.size = 5
        ∧ Reads loopTable loopCode [⟨0, 13, 0x40, .switch [13, 18], .declared⟩, i] 18)
      ∧ decodeCode loopTable [0x50, 0, 0, 0, 0, 0x02, 0x50, 0]
        = .error (.format (.operandOverrun 0x50 6 4 1))
      ∧ ∃ is, Reads loopTable [0x50, 0, 0, 0, 0, 0x02, 0x50, 0] is 6
        ∧ ∃ i ∈ is, i.opcode = 0x50 := by
  have hfirst : loopCode[0]? = some 0x40 := by decide
  have hswitch : Scanned loopTable loopCode [⟨0, 13, 0x40, .switch [13, 18], .declared⟩] 13 [] :=
    Scanned.start.read hfirst (by decide +kernel)
  have hoverrun : decodeCode loopTable [0x50, 0, 0, 0, 0, 0x02, 0x50, 0]
      = .error (.format (.operandOverrun 0x50 6 4 1)) := by decide +kernel
  refine ⟨?_, hoverrun, ?_⟩
  · obtain ⟨S, width, i, hS, hbest, -, hoffset, hopcode, hsize, -, hreads, -⟩ :=
      (width_inferred loopTable loopCode).1 _ 13 0x50 ⟨[], hswitch⟩ (by decide) (by decide)
        (by simp)
    have hsupport {p : ℕ} (hp : p ≤ 24) :
        S p = Width.support loopTable [] Width.lookahead (loopCode.drop p) :=
      (hswitch.lookahead_iff hp).mp ((hS p hp _).mpr rfl)
    have hmost := hbest.most .four (by decide)
    obtain rfl : width = .four := by
      rw [hsupport (by decide), hsupport hbest.fits] at hmost
      clear hbest hsize hreads
      revert hmost
      cases width <;> decide +kernel
    exact ⟨i, hoffset, hopcode, hsize, hreads⟩
  · obtain ⟨is, hreads, -, hmet⟩ :=
      (width_inferred loopTable _).2.1 0x50 6 4 1 hoverrun (by decide)
    exact ⟨is, hreads, hmet⟩

end Decode

end OpcodeRecovery
