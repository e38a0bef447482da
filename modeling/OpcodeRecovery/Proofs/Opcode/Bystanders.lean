import Mathlib.Tactic
import OpcodeRecovery.Proofs.Opcode.Coverage
import OpcodeRecovery.Proofs.Opcode.Injectivity

/-!
Opcodes that are known beforehand, but were not met, stand by: they add themselves to a mapping, and
change nothing else in it.

* `Contest.Parallel`: two contests that differ in their verdicts alone. Nothing in a round looks at
  the verdicts, so parallel contests dismiss, choose a leader and assign alike
  (`Contest.Parallel.dismiss`, `Contest.Parallel.leader?_eq`, `Contest.Parallel.assign`). They go
  through the same course, with the same verdicts written, and end in parallel
  (`Contest.Parallel.exists_course`).
* `Resolver.parallel_start`: whatever is known beforehand, the contest starts with the same
  contenders.
* `Resolver.resolve_adds_known`: mappings of the same profiles agree on every opcode met. Of the
  others, each has those that were known to it, with no occurrences.
-/

namespace OpcodeRecovery

/-! ### Contests side by side -/

namespace Contest

variable {config : MappingConfig} {c c' : Contest}

/-- The contests differ in their verdicts alone. -/
structure Parallel (c c' : Contest) : Prop where
  pending_eq : c.pending = c'.pending
  taken_eq : c.taken = c'.taken
  contested_eq : c.contested = c'.contested

namespace Parallel

/-- One contest is the other one with its own verdicts. -/
lemma eq_with (h : c.Parallel c') : c' = { c with verdicts := c'.verdicts } := by
  rw [h.pending_eq, h.taken_eq, h.contested_eq]

lemma dismiss (h : c.Parallel c') : (c.dismiss config).Parallel (c'.dismiss config) := by
  rw [h.eq_with]
  exact ⟨rfl, rfl, rfl⟩

lemma dismissals_eq (h : c.Parallel c') : c.dismissals config = c'.dismissals config := by
  rw [h.eq_with]
  rfl

lemma leader?_eq (h : c.Parallel c') : c.leader? config = c'.leader? config := by
  rw [h.eq_with]
  rfl

lemma awards_eq (h : c.Parallel c') (x : Contender) (best : Scored) :
    c.awards config x best = c'.awards config x best := by
  rw [h.eq_with]
  rfl

lemma leftovers_eq (h : c.Parallel c') : c.leftovers config = c'.leftovers config := by
  rw [h.eq_with]
  rfl

lemma assign (h : c.Parallel c') (x : Contender) (best : Scored) :
    (c.assign config x best).Parallel (c'.assign config x best) := by
  have hclaimants (v : Ledger UInt8 Verdict) :
      claimants config { c with verdicts := v } x best = c.claimants config x best := rfl
  rw [h.eq_with]
  simp only [Contest.assign, hclaimants]
  split_ifs <;> exact ⟨rfl, rfl, rfl⟩

/-- Parallel contests go through the same course, round by round, and end in parallel. -/
lemma exists_course (config : MappingConfig) (h : c.Parallel c') :
    ∃ n ws, Course config c n ws (c.run config) ∧ Course config c' n ws (c'.run config)
      ∧ (c.run config).Parallel (c'.run config) := by
  induction c using Contest.run.induct config generalizing c' with
  | @case1 c d hlead =>
      have hlead' := h.dismiss.leader?_eq.symm.trans hlead
      have hdone := Course.done hlead'
      rw [← h.dismissals_eq] at hdone
      rw [run_of_leader?_none hlead, run_of_leader?_none hlead']
      exact ⟨0, _, .done hlead, hdone, h.dismiss⟩
  | @case2 c d x best hlead ih =>
      have hlead' := h.dismiss.leader?_eq.symm.trans hlead
      obtain ⟨n, ws, hrest, hrest', hend⟩ := ih (h.dismiss.assign x best)
      have hround := Course.round hlead' hrest'
      rw [← h.dismissals_eq, ← h.dismiss.awards_eq] at hround
      rw [run_of_leader? hlead, run_of_leader? hlead']
      exact ⟨n + 1, _, .round hlead hrest, hround, hend⟩

end Parallel

end Contest

/-! ### Resolving -/

namespace Resolver

variable {r : Resolver} {profiles : ProfileSet} {known : List UInt8} {o : UInt8}

lemma get?_eq_none_of_notMem (ho : o ∉ profiles.opcodes) : profiles.get? o = none := by
  rwa [ProfileSet.opcodes, Ledger.mem_keys_iff, Option.not_isSome_iff_eq_none] at ho

/-- Whatever is known beforehand, the contest starts with the opcodes that were met often enough. -/
lemma parallel_start (r : Resolver) (profiles : ProfileSet) (known known' : List UInt8) :
    (r.start profiles known).Parallel (r.start profiles known') := by
  refine ⟨Ledger.filterMap_distinct_congr fun o ho => ?_, rfl, rfl⟩
  have hmet : o ∈ profiles.opcodes := by
    by_contra hnew
    have hnone : r.evidence? profiles o = none :=
      evidence?_eq_none_iff.mpr (.inl (get?_eq_none_of_notMem hnew))
    simp [hnone] at ho
  simp [hmet]

/-- The verdicts before the contest, by opcode. -/
lemma mem_openings_iff {v : Verdict} :
    (o, v) ∈ r.openings profiles known
      ↔ (o ∈ profiles.opcodes ∨ o ∈ known) ∧ r.opening? profiles o = some (o, v) := by
  rw [openings, List.mem_filterMap, ← mem_opcodes]
  constructor
  · rintro ⟨o', ho', hopening⟩
    obtain ⟨-, heq⟩ := opening?_eq_some_iff.mp hopening
    obtain ⟨rfl, -⟩ := Prod.mk.inj heq
    exact ⟨ho', hopening⟩
  · rintro ⟨ho, hopening⟩
    exact ⟨o, ho, hopening⟩

/-- An opcode that was met has its verdict whatever is known beforehand. -/
lemma get?_resolve_of_met (known known' : List UInt8) (ho : o ∈ profiles.opcodes) :
    (r.resolve profiles known).mapping.get? o = (r.resolve profiles known').mapping.get? o := by
  obtain ⟨n, ws, hcourse, hcourse', hend⟩ :=
    (parallel_start r profiles known known').exists_course r.config
  refine Option.ext fun v => ?_
  rw [get?_resolve_iff hcourse, get?_resolve_iff hcourse', journal, journal, hend.leftovers_eq]
  simp only [List.mem_append, mem_openings_iff, ho, true_or, true_and]

/-- An opcode that was not met has a verdict exactly if it is known beforehand. -/
lemma get?_resolve_of_not_met (known : List UInt8) (ho : o ∉ profiles.opcodes) :
    (r.resolve profiles known).mapping.get? o
      = if o ∈ known then some (.noEvidence 0) else none := by
  split_ifs with hknown
  · obtain ⟨n, ws, hcourse⟩ := Contest.exists_course r.config (r.start profiles known)
    have hnone := get?_eq_none_of_notMem ho
    have hopening : r.opening? profiles o = some (o, .noEvidence 0) :=
      opening?_eq_some_iff.mpr ⟨evidence?_eq_none_iff.mpr (.inl hnone), by rw [hnone]; rfl⟩
    rw [get?_resolve_iff hcourse, noEvidence_mem_journal hcourse]
    exact mem_openings_iff.mpr ⟨.inr hknown, hopening⟩
  · rw [← Option.not_isSome_iff_eq_none, isSome_get?_resolve]
    simp [ho, hknown]

/-- **Known opcodes add themselves and nothing else.** Whatever opcodes are known beforehand, the
verdicts on the opcodes that were met are the same, with their scores, candidates and rivals, and
the same is logged. On the other opcodes there is a verdict exactly if they are known, and it is
that they do not occur. -/
theorem resolve_adds_known (r : Resolver) (profiles : ProfileSet) :
    (∀ known known' : List UInt8,
      (∀ o ∈ profiles.opcodes, (r.resolve profiles known).mapping.get? o
        = (r.resolve profiles known').mapping.get? o)
      ∧ (r.resolve profiles known).log = (r.resolve profiles known').log)
    ∧ ∀ (known : List UInt8) (o : UInt8), o ∉ profiles.opcodes →
      (r.resolve profiles known).mapping.get? o
        = if o ∈ known then some (.noEvidence 0) else none := by
  refine ⟨fun known known' => ⟨fun o => get?_resolve_of_met known known', ?_⟩,
    fun known o => get?_resolve_of_not_met known⟩
  obtain ⟨-, -, -, -, hend⟩ :=
    (parallel_start r profiles known known').exists_course r.config
  rw [resolve, resolve, hend.contested_eq]

theorem resolve_adds_known_sample :
    1 ∈ sampleProfiles.opcodes ∧ 9 ∉ sampleProfiles.opcodes
      ∧ (sample.resolve sampleProfiles [9]).mapping.get? 1
        = (sample.resolve sampleProfiles [1, 7]).mapping.get? 1
      ∧ (sample.resolve sampleProfiles [9]).mapping.get? 9 = some (.noEvidence 0)
      ∧ (sample.resolve sampleProfiles [1, 7]).mapping.get? 9 = none := by
  have hmet : 1 ∈ sampleProfiles.opcodes := by decide
  have hnew : 9 ∉ sampleProfiles.opcodes := by decide
  obtain ⟨hsame, hadded⟩ := resolve_adds_known sample sampleProfiles
  exact ⟨hmet, hnew, (hsame [9] [1, 7]).1 1 hmet, hadded [9] 9 hnew, hadded [1, 7] 9 hnew⟩

end Resolver

end OpcodeRecovery
