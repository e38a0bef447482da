import Mathlib.Tactic
import OpcodeRecovery.Code.Cache
import OpcodeRecovery.Proofs.Ledger

/-!
What the votes of a cache count.

`inferredCount` is the number of instructions that were inferred to have an opcode and a shape.
`ShapeVotes.Tally` says that votes are these numbers, wherever they are not zero, which is to say
that they count the pairs of the inferred instructions (`ShapeVotes.tally_iff_counts`). Counting one
instruction keeps it (`ShapeVotes.Tally.count`), so counting a method does
(`ShapeVotes.Tally.recordVotes`); the order of the instructions does not matter
(`ShapeVotes.Tally.perm`), and the votes are determined (`ShapeVotes.Tally.eq`).

`ShapeVotes.dominant_eq_some_iff` says which shape of an opcode is the dominant one. It was inferred
for the opcode (`ShapeVotes.Tally.exists_of_dominant`), and every opcode of an inferred instruction
has one. `ShapeVotes.get?_promote` says what a table declares when the dominant shapes are promoted.
-/

namespace OpcodeRecovery

/-- How many instructions were inferred to have an opcode and a shape. -/
def inferredCount (is : List Instruction) (p : UInt8 × OperandShape) : ℕ :=
  is.countP fun i => i.source = .inferred ∧ (i.opcode, i.shape) = p

/-- The opcodes and shapes of the inferred instructions. -/
def inferredPairs (is : List Instruction) : List (UInt8 × OperandShape) :=
  is.filterMap fun i => if i.source = .inferred then some (i.opcode, i.shape) else none

lemma inferredPairs_append_singleton (is : List Instruction) (i : Instruction) :
    inferredPairs (is ++ [i])
      = inferredPairs is ++ if i.source = .inferred then [(i.opcode, i.shape)] else [] := by
  rw [inferredPairs, List.filterMap_append, ← inferredPairs]
  by_cases hsource : i.source = .inferred <;> simp [hsource]

lemma count_inferredPairs (is : List Instruction) (p : UInt8 × OperandShape) :
    (inferredPairs is).count p = inferredCount is p := by
  rw [inferredPairs, List.count, List.countP_filterMap, inferredCount]
  refine List.countP_congr fun i _ => ?_
  by_cases hsource : i.source = .inferred <;> simp [hsource]

namespace ShapeVotes

/-- The votes are the counts of some instructions; what was not counted has no vote. -/
def Tally (v : ShapeVotes) (is : List Instruction) : Prop :=
  ∀ p n, v.counts.get? p = some n ↔ n = inferredCount is p ∧ 0 < n

lemma tally_iff_counts {v : ShapeVotes} {is : List Instruction} :
    Tally v is ↔ v.counts.Counts (inferredPairs is) := by
  simp only [Tally, Ledger.Counts, count_inferredPairs]

namespace Tally

variable {v w : ShapeVotes} {is js : List Instruction}

lemma empty : Tally .empty [] :=
  tally_iff_counts.mpr .empty

/-- Counting one instruction. -/
lemma count (h : Tally v is) (i : Instruction) :
    Tally (if i.source = .inferred then v.record i.opcode i.shape else v) (is ++ [i]) := by
  rw [tally_iff_counts] at h ⊢
  rw [inferredPairs_append_singleton]
  split_ifs with hsource
  · exact h.add (i.opcode, i.shape)
  · rwa [List.append_nil]

/-- Counting a method. -/
lemma recordVotes (h : Tally v is) (m : Method) :
    Tally (Cache.recordVotes v m) (is ++ m.instructions.toList) := by
  rw [Cache.recordVotes]
  generalize m.instructions.toList = js
  induction js generalizing v is with
  | nil => rwa [List.append_nil]
  | cons i js ih =>
      rw [List.foldl_cons, ← List.singleton_append, ← List.append_assoc]
      exact ih (h.count i)

lemma perm (h : Tally v is) (hperm : is.Perm js) : Tally v js := by
  intro p n
  rw [h p n, inferredCount, inferredCount, hperm.countP_eq]

/-- Votes that count the same instructions are equal. -/
lemma eq (hv : Tally v is) (hw : Tally w is) : v = w :=
  congrArg mk ((tally_iff_counts.mp hv).eq (tally_iff_counts.mp hw))

end Tally

/-! ### The dominant shape -/

variable {v : ShapeVotes} {is : List Instruction} {i : Instruction} {o : UInt8} {s : OperandShape}

lemma mem_ofOpcode_iff {n : ℕ} : (s, n) ∈ v.ofOpcode o ↔ v.counts.get? (o, s) = some n := by
  rw [← Ledger.mem_entries_iff, ofOpcode, List.mem_filterMap]
  constructor
  · rintro ⟨⟨⟨o', s'⟩, n'⟩, hmem, he⟩
    simp only [Option.ite_none_right_eq_some, Option.some.injEq, Prod.mk.injEq] at he
    obtain ⟨rfl, rfl, rfl⟩ := he
    exact hmem
  · intro hmem
    exact ⟨((o, s), n), hmem, if_pos rfl⟩

/-- Pairs are ordered by their opcodes, and by their shapes for one opcode. -/
lemma rank_lt_rank_iff {p q : UInt8 × OperandShape} :
    rank p < rank q ↔ p.1 < q.1 ∨ p.1 = q.1 ∧ rank p.2 < rank q.2 := by
  have hp := p.2.index_lt
  have hq := q.2.index_lt
  change p.1.toNat * 7 + p.2.index < q.1.toNat * 7 + q.2.index
    ↔ p.1 < q.1 ∨ p.1 = q.1 ∧ p.2.index < q.2.index
  rw [UInt8.lt_iff_toNat_lt, ← UInt8.toNat_inj]
  omega

/-- The votes of an opcode stand in the order of the shapes. -/
lemma pairwise_ofOpcode (v : ShapeVotes) (o : UInt8) :
    (v.ofOpcode o).Pairwise fun a b => rank a.1 < rank b.1 := by
  refine v.counts.ascending.filterMap _ fun e e' hlt a ha a' ha' => ?_
  simp only [Option.ite_none_right_eq_some, Option.some.injEq] at ha ha'
  obtain ⟨ho, rfl⟩ := ha
  obtain ⟨ho', rfl⟩ := ha'
  rcases rank_lt_rank_iff.mp hlt with hopcode | ⟨-, hshape⟩
  · rw [ho, ho'] at hopcode
    exact absurd hopcode (UInt8.lt_irrefl o)
  · exact hshape

/-- The dominant shape of an opcode: no shape has more votes, and no lower one has as many. -/
lemma dominant_eq_some_iff :
    v.dominant o = some s ↔ ∃ n, v.counts.get? (o, s) = some n
      ∧ ∀ s' n', v.counts.get? (o, s') = some n' → n' ≤ n ∧ (rank s' < rank s → n' < n) := by
  rw [dominant, Ledger.dominantEntry_eq_some_iff (v.pairwise_ofOpcode o)]
  refine exists_congr fun n => ?_
  constructor
  · intro h
    refine ⟨mem_ofOpcode_iff.mp h.mem, fun s' n' hn' => ?_⟩
    have hmem := mem_ofOpcode_iff.mpr hn'
    exact ⟨h.le _ hmem, h.lt _ hmem⟩
  · rintro ⟨hn, hmost⟩
    refine ⟨mem_ofOpcode_iff.mpr hn, fun a ha => ?_, fun a ha => ?_⟩
    · exact (hmost a.1 a.2 (mem_ofOpcode_iff.mp ha)).1
    · exact (hmost a.1 a.2 (mem_ofOpcode_iff.mp ha)).2

lemma dominant_eq_none_iff : v.dominant o = none ↔ ∀ s, v.counts.get? (o, s) = none := by
  rw [dominant, Ledger.dominantEntry_eq_none_iff (v.pairwise_ofOpcode o),
    List.eq_nil_iff_forall_not_mem]
  constructor
  · intro h s
    refine Option.eq_none_iff_forall_ne_some.mpr fun n hn => ?_
    exact h (s, n) (mem_ofOpcode_iff.mpr hn)
  · intro h a ha
    have hvote := mem_ofOpcode_iff.mp ha
    rw [h] at hvote
    cases hvote

/-- The dominant shape of an opcode was inferred for it. -/
lemma Tally.exists_of_dominant (h : Tally v is) (hs : v.dominant o = some s) :
    ∃ i ∈ is, i.source = .inferred ∧ i.opcode = o ∧ i.shape = s := by
  obtain ⟨n, hn, -⟩ := dominant_eq_some_iff.mp hs
  obtain ⟨rfl, hpos⟩ := (h _ n).mp hn
  obtain ⟨i, hi, hcounted⟩ := List.countP_pos_iff.mp hpos
  obtain ⟨hsource, hpair⟩ := of_decide_eq_true hcounted
  obtain ⟨rfl, rfl⟩ := Prod.mk.inj hpair
  exact ⟨i, hi, hsource, rfl, rfl⟩

/-- An opcode of an inferred instruction has a dominant shape. -/
lemma Tally.exists_dominant (h : Tally v is) (hi : i ∈ is) (hsource : i.source = .inferred) :
    ∃ s, v.dominant i.opcode = some s := by
  have hpos : 0 < inferredCount is (i.opcode, i.shape) :=
    List.countP_pos_iff.mpr ⟨i, hi, decide_eq_true ⟨hsource, rfl⟩⟩
  have hvote := (h _ _).mpr ⟨rfl, hpos⟩
  refine Option.ne_none_iff_exists'.mp fun hnone => ?_
  rw [dominant_eq_none_iff.mp hnone] at hvote
  cases hvote

lemma mem_allOpcodes (o : UInt8) : o ∈ allOpcodes :=
  List.mem_map.mpr ⟨o.toNat, List.mem_range.mpr o.toNat_lt, UInt8.ofNat_toNat⟩

/-- Steps that settle an opcode each, by what it has or else by a default, settle all of them. -/
lemma get?_foldl_or {d : UInt8 → Option OperandShape} {g : ShapeTable → UInt8 → ShapeTable}
    (hg : ∀ t a, (g t a).get? o = if o = a then (t.get? o).or (d o) else t.get? o)
    (os : List UInt8) (t : ShapeTable) :
    (os.foldl g t).get? o = if o ∈ os then (t.get? o).or (d o) else t.get? o := by
  induction os generalizing t with
  | nil => rw [List.foldl_nil, if_neg List.not_mem_nil]
  | cons a os ih =>
      rw [List.foldl_cons, ih, hg]
      by_cases ha : o = a
      · simp [ha, Option.or_assoc]
      · simp [ha]

/-- A promoted table declares what was declared, and the dominant shapes of the other opcodes. -/
lemma get?_promote (v : ShapeVotes) (table : ShapeTable) (o : UInt8) :
    (v.promote table).get? o = (table.get? o).or (v.dominant o) := by
  rw [promote, get?_foldl_or, if_pos (mem_allOpcodes o)]
  intro t a
  by_cases ha : o = a
  · subst ha
    rw [if_pos rfl]
    cases hdeclared : t.get? o with
    | some shape => exact hdeclared
    | none =>
        cases v.dominant o with
        | none => exact hdeclared
        | some shape => exact Ledger.get?_insert_self _ _ _
  · rw [if_neg ha]
    cases t.get? a with
    | some shape => rfl
    | none =>
        cases v.dominant a with
        | none => rfl
        | some shape => exact Ledger.get?_insert_of_ne _ _ ha

end ShapeVotes

end OpcodeRecovery
