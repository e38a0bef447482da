import Mathlib.Tactic
import OpcodeRecovery.Opcode.Profile
import OpcodeRecovery.Proofs.Code.Votes

/-!
What votes say of the records they were made from, and what tables they lead to.

* `ShapeVotes.counts_recorded`: votes count the records, so the order of the records does not matter.
* `ShapeVotes.Prevails`: no shape was recorded for an opcode more often, and no lower one as often.
  This is the dominant shape (`ShapeVotes.dominant_recorded_iff`).
* `ShapeVotes.ofOpcode_eq_between`: the votes of one opcode are a range of all votes.
* `ShapeVotes.dominantShape_eq`: a profile with the same counts of shapes has the same dominant one.
* `ShapeVotes.promote_promote`: promoting once more changes nothing.
* `ShapeVotes.recorded_sums_up` puts these together, for records in any order.
-/

namespace OpcodeRecovery

/-- Tables of one version that declare the same shapes are equal. -/
lemma ShapeTable.ext_get? {t t' : ShapeTable} (hversion : t.version = t'.version)
    (h : ∀ o, t.get? o = t'.get? o) : t = t' := by
  obtain ⟨version, shapes⟩ := t
  obtain ⟨version', shapes'⟩ := t'
  exact congrArg₂ ShapeTable.mk hversion (Ledger.ext_get? h)

namespace ShapeVotes

/-! ### Records -/

/-- The votes after some records, one after the other. -/
def recorded (rs : List (UInt8 × OperandShape)) : ShapeVotes :=
  rs.foldl (fun v r => v.record r.1 r.2) .empty

/-- A shape prevails among the records of an opcode: no shape was recorded for it more often, and no
lower one as often. -/
structure Prevails (rs : List (UInt8 × OperandShape)) (o : UInt8) (s : OperandShape) : Prop where
  met : (o, s) ∈ rs
  most : ∀ s', rs.count (o, s') ≤ rs.count (o, s)
  lowest : ∀ s', rank s' < rank s → rs.count (o, s') < rs.count (o, s)

variable {v : ShapeVotes} {rs rs' : List (UInt8 × OperandShape)} {o : UInt8} {s : OperandShape}

/-- Votes count the records. -/
lemma counts_recorded (rs : List (UInt8 × OperandShape)) : (recorded rs).counts.Counts rs := by
  induction rs using List.reverseRecOn with
  | nil => exact .empty
  | append_singleton rs r ih =>
      rw [recorded, List.foldl_append]
      exact ih.add r

lemma recorded_eq_of_perm (h : rs'.Perm rs) : recorded rs' = recorded rs :=
  congrArg mk (((counts_recorded rs').perm h).eq (counts_recorded rs))

lemma get?_recorded {p : UInt8 × OperandShape} (hp : p ∈ rs) :
    (recorded rs).counts.get? p = some (rs.count p) :=
  (counts_recorded rs p _).mpr ⟨rfl, List.count_pos_iff.mpr hp⟩

/-- The dominant shape of an opcode is the one that prevails among its records. -/
lemma dominant_recorded_iff : (recorded rs).dominant o = some s ↔ Prevails rs o s := by
  rw [dominant_eq_some_iff]
  constructor
  · rintro ⟨n, hn, hmost⟩
    obtain ⟨rfl, hpos⟩ := (counts_recorded rs _ _).mp hn
    refine ⟨List.count_pos_iff.mp hpos, fun s' => ?_, fun s' hlower => ?_⟩
    · by_cases hmet : (o, s') ∈ rs
      · exact (hmost s' _ (get?_recorded hmet)).1
      · rw [List.count_eq_zero.mpr hmet]
        exact Nat.zero_le _
    · by_cases hmet : (o, s') ∈ rs
      · exact (hmost s' _ (get?_recorded hmet)).2 hlower
      · rwa [List.count_eq_zero.mpr hmet]
  · intro h
    refine ⟨rs.count (o, s), get?_recorded h.met, fun s' n' hn' => ?_⟩
    obtain ⟨rfl, -⟩ := (counts_recorded rs _ _).mp hn'
    exact ⟨h.most s', h.lowest s'⟩

/-- Opcodes without records have no dominant shape. -/
lemma dominant_recorded_eq_none_iff :
    (recorded rs).dominant o = none ↔ ∀ s, (o, s) ∉ rs := by
  rw [dominant_eq_none_iff]
  refine forall_congr' fun s => ⟨fun hnone hmet => ?_, fun hmet => ?_⟩
  · rw [get?_recorded hmet] at hnone
    cases hnone
  · refine Option.eq_none_iff_forall_ne_some.mpr fun n hn => ?_
    obtain ⟨rfl, hpos⟩ := (counts_recorded rs _ _).mp hn
    exact hmet (List.count_pos_iff.mp hpos)

/-! ### The votes of one opcode -/

/-- The votes from one pair to another, both included. -/
def between (v : ShapeVotes) (lowest highest : UInt8 × OperandShape) :
    List ((UInt8 × OperandShape) × ℕ) :=
  v.toList.filter fun e => decide (rank lowest ≤ rank e.1) && decide (rank e.1 ≤ rank highest)

/-- The pairs of an opcode are those between its lowest and its highest one. -/
lemma opcode_eq_iff (o : UInt8) (p : UInt8 × OperandShape) :
    p.1 = o ↔ rank (o, OperandShape.none) ≤ rank p ∧ rank p ≤ rank (o, OperandShape.switch) := by
  have hp := p.2.index_lt
  change p.1 = o ↔ o.toNat * 7 + 0 ≤ p.1.toNat * 7 + p.2.index
    ∧ p.1.toNat * 7 + p.2.index ≤ o.toNat * 7 + 6
  rw [← UInt8.toNat_inj]
  omega

lemma ofOpcode_eq_between (v : ShapeVotes) (o : UInt8) :
    v.ofOpcode o = (v.between (o, .none) (o, .switch)).map fun e => (e.1.2, e.2) := by
  rw [between, ← List.filterMap_eq_map, List.filterMap_filter, toList, ofOpcode]
  refine List.filterMap_congr fun e _ => ?_
  simp only [opcode_eq_iff o e.1, Bool.and_eq_true, decide_eq_true_eq, Function.comp_apply]

/-- A profile that counts the same shapes as the votes on an opcode has the same dominant one. -/
lemma dominantShape_eq {p : Profile}
    (h : ∀ s n, p.shapes.get? s = some n ↔ ((o, s), n) ∈ v.toList) :
    p.dominantShape = v.dominant o := by
  have hshapes : p.shapes = ⟨v.ofOpcode o, v.pairwise_ofOpcode o⟩ := by
    refine Ledger.ext_get? fun s => Option.ext fun n => ?_
    rw [h, toList, Ledger.mem_entries_iff, ← mem_ofOpcode_iff, ← Ledger.mem_entries_iff]
  rw [Profile.dominantShape, hshapes]
  rfl

/-! ### Promotion -/

lemma version_promote (v : ShapeVotes) (t : ShapeTable) : (v.promote t).version = t.version := by
  rw [promote]
  generalize allOpcodes = os
  induction os generalizing t with
  | nil => rfl
  | cons a os ih =>
      rw [List.foldl_cons, ih]
      split <;> rfl

/-- Promoting once more changes nothing. -/
lemma promote_promote (v : ShapeVotes) (t : ShapeTable) :
    v.promote (v.promote t) = v.promote t := by
  refine ShapeTable.ext_get? (version_promote v _) fun o => ?_
  rw [get?_promote, get?_promote, Option.or_assoc, Option.or_self]

/-! ### Votes and what they lead to -/

/-- What votes say of the records they were made from. -/
structure SumsUp (rs : List (UInt8 × OperandShape)) (v : ShapeVotes) : Prop where
  /-- The votes are listed by opcode, and by shape for one opcode. -/
  ascending : v.toList.Pairwise fun a b =>
    a.1.1 < b.1.1 ∨ a.1.1 = b.1.1 ∧ rank a.1.2 < rank b.1.2
  /-- The pairs that were recorded are listed, each with the number of its records. -/
  counted : ∀ p n, (p, n) ∈ v.toList ↔ n = rs.count p ∧ 0 < n
  /-- The votes on an opcode are those from its lowest to its highest shape. -/
  ranged : ∀ o, v.ofOpcode o = (v.between (o, .none) (o, .switch)).map fun e => (e.1.2, e.2)
  /-- The dominant shape of an opcode prevails among its records. -/
  dominant : ∀ o s, v.dominant o = some s ↔ Prevails rs o s
  /-- An opcode without records, and no other, has no dominant shape. -/
  undecided : ∀ o, v.dominant o = none ↔ ∀ s, (o, s) ∉ rs
  /-- A profile with the same counts of shapes has the same dominant shape. -/
  profiled : ∀ o (p : Profile), (∀ s n, p.shapes.get? s = some n ↔ ((o, s), n) ∈ v.toList) →
    p.dominantShape = v.dominant o

/-- A table is extended by dominant shapes: what was declared is kept, and the other opcodes are
declared to have their dominant shapes, if they have one. -/
structure Extends (v : ShapeVotes) (t t' : ShapeTable) : Prop where
  version : t'.version = t.version
  kept : ∀ o s, t.get? o = some s → t'.get? o = some s
  added : ∀ o, t.get? o = none → t'.get? o = v.dominant o

/-- **Votes sum up records**, made in any order: they list and count them, the dominant shapes are
those that prevail, for votes as for profiles, and promoting extends a table by these, once and for
all. -/
theorem recorded_sums_up (h : rs'.Perm rs) :
    SumsUp rs (recorded rs') ∧ ∀ t, Extends (recorded rs') t ((recorded rs').promote t)
      ∧ (recorded rs').promote ((recorded rs').promote t) = (recorded rs').promote t := by
  rw [recorded_eq_of_perm h]
  refine ⟨?_, fun t => ⟨?_, promote_promote _ t⟩⟩
  · exact
      { ascending := (recorded rs).counts.ascending.imp fun hlt => rank_lt_rank_iff.mp hlt
        counted := fun p n => Ledger.mem_entries_iff.trans (counts_recorded rs p n)
        ranged := ofOpcode_eq_between _
        dominant := fun o s => dominant_recorded_iff
        undecided := fun o => dominant_recorded_eq_none_iff
        profiled := fun o p => dominantShape_eq }
  · refine ⟨version_promote _ t, fun o s hs => ?_, fun o hnone => ?_⟩
    · rw [get?_promote, hs, Option.some_or]
    · rw [get?_promote, hnone, Option.none_or]

/-- Records of two opcodes, one of them with two shapes. -/
def sampleRecords : List (UInt8 × OperandShape) :=
  [(0x10, .branch), (0x10, .int32), (0x10, .branch), (0x03, .none)]

/-- A profile with the same counts of shapes as the records of one opcode. -/
def sampleProfile : Profile :=
  { opcode := 0x10, shapes := (Ledger.empty.add .branch 2).add .int32 1 }

/-- The branch prevails, however the records are ordered, and is promoted. -/
theorem recorded_sums_up_sample :
    sampleRecords.reverse.Perm sampleRecords ∧ Prevails sampleRecords 0x10 .branch
      ∧ (recorded sampleRecords.reverse).dominant 0x10 = some .branch
      ∧ sampleProfile.dominantShape = (recorded sampleRecords.reverse).dominant 0x10
      ∧ ((recorded sampleRecords.reverse).promote .default).get? 0x10 = some .branch := by
  have hperm : sampleRecords.reverse.Perm sampleRecords := List.reverse_perm _
  have hprevails : Prevails sampleRecords 0x10 .branch :=
    ⟨by decide, fun s' => by cases s' <;> decide, fun s' => by cases s' <;> decide⟩
  obtain ⟨hsums, hextends⟩ := recorded_sums_up hperm
  have hdominant := (hsums.dominant 0x10 .branch).mpr hprevails
  refine ⟨hperm, hprevails, hdominant, hsums.profiled 0x10 sampleProfile fun s n => ?_, ?_⟩
  · have hentries : sampleProfile.shapes.entries = [(.int32, 1), (.branch, 2)] := by decide
    rw [hsums.counted, ← Ledger.mem_entries_iff, hentries]
    cases s <;> simp [sampleRecords] <;> omega
  · rw [(hextends .default).1.added 0x10 rfl, hdominant]

end ShapeVotes

end OpcodeRecovery
