import Mathlib.Tactic
import OpcodeRecovery.Opcode.Resolve
import OpcodeRecovery.Proofs.Ledger

/-!
Every opcode gets a verdict, and gets it once.

* `Contest.Course` is the course of a contest, as the rounds it goes through and the verdicts
  that are written on the way, in their order. `Contest.exists_course`: the contest that `run`
  carries out has a course, of no more rounds than there are contenders.
* `Contest.Course.perm` is what every round keeps. An opcode leaves the pending ones exactly
  when a verdict on it is written: the opcodes written about, and those still pending, are
  together those that were pending before.
* `Resolver.resolve_covers`: the verdicts of a mapping are the ones written, no opcode is written
  about twice, and the opcodes are those met and those known. Too little evidence is the verdict
  exactly where there is too little.

How scores compare plays no part in it: nothing is assumed about a scorer, a threshold or a
margin.
-/

namespace OpcodeRecovery

/-! ### Lists of opcodes -/

/-- The opcodes of some items are those that are written about and those that are not. -/
lemma perm_written {α : Type} {w : α → Option (UInt8 × Verdict)} {opcode : α → UInt8}
    (hw : ∀ a e, w a = some e → e.1 = opcode a) (as : List α) :
    ((as.filterMap w).map Prod.fst ++ (as.filter fun a => (w a).isNone).map opcode).Perm
      (as.map opcode) := by
  have hout : (as.filterMap w).map Prod.fst = (as.filter fun a => !(w a).isNone).map opcode := by
    induction as with
    | nil => rfl
    | cons a as ih =>
        cases ha : w a with
        | none => simp [List.filterMap_cons_none ha, ha, ih]
        | some e => simp [List.filterMap_cons_some ha, ha, hw a e ha, ih]
  rw [hout, ← List.map_append]
  exact (List.perm_append_comm.trans (List.filter_append_perm _ as)).map opcode

/-- A list of opcodes from which some are taken consists of these and of the others. -/
lemma perm_taken {os all : List UInt8} (hall : all.Nodup) (hos : os.Nodup)
    (hsub : ∀ o ∈ os, o ∈ all) : (os ++ all.filter fun o => !os.contains o).Perm all := by
  have hnodup : (os ++ all.filter fun o => !os.contains o).Nodup := by
    refine List.nodup_append'.mpr ⟨hos, hall.filter _, ?_⟩
    intro o ho hfilter
    simp [ho] at hfilter
  refine (List.perm_ext_iff_of_nodup hnodup hall).mpr fun o => ?_
  simp only [List.mem_append, List.mem_filter, List.contains_eq_mem, Bool.not_eq_true',
    decide_eq_false_iff_not]
  constructor
  · rintro (ho | ⟨ho, -⟩)
    · exact hsub o ho
    · exact ho
  · intro ho
    by_cases hmem : o ∈ os
    · exact .inl hmem
    · exact .inr ⟨ho, hmem⟩

namespace Contest

variable {config : MappingConfig} {c d : Contest} {x : Contender} {best : Scored}

/-- The opcodes to be decided. -/
def opcodes (c : Contest) : List UInt8 := c.pending.map (·.opcode)

/-! ### Dismissing -/

/-- The verdict on a contender, if it is out. -/
def dismissal? (config : MappingConfig) (c : Contest) (x : Contender) :
    Option (UInt8 × Verdict) :=
  match c.standing config x with
  | .dismissed best => some (x.opcode, .lowConfidence (best.map (·.candidate)))
  | _ => none

/-- The verdicts that are written when contenders are dismissed, in their order. -/
def dismissals (config : MappingConfig) (c : Contest) : List (UInt8 × Verdict) :=
  c.pending.filterMap (c.dismissal? config)

lemma dismissal?_eq_some {e : UInt8 × Verdict} (h : c.dismissal? config x = some e) :
    ∃ best, e = (x.opcode, .lowConfidence best) := by
  rw [dismissal?] at h
  split at h
  · obtain rfl := Option.some.inj h
    exact ⟨_, rfl⟩
  · cases h

/-- A contender stays exactly if no verdict on it is written. -/
lemma stays_eq (x : Contender) : c.stays config x = (c.dismissal? config x).isNone := by
  rw [stays, dismissal?]
  cases c.standing config x <;> rfl

lemma verdicts_dismiss :
    (c.dismiss config).verdicts = c.verdicts.writeAll (c.dismissals config) := by
  refine Ledger.foldl_eq_writeAll (fun l x => ?_) c.pending c.verdicts
  rw [noteDismissal, dismissal?]
  cases c.standing config x <;> rfl

/-- Whoever is written about is not pending any more. -/
lemma perm_dismiss :
    ((c.dismissals config).map Prod.fst ++ (c.dismiss config).opcodes).Perm c.opcodes := by
  have hstay : (c.dismiss config).pending
      = c.pending.filter fun x => (c.dismissal? config x).isNone :=
    List.filter_congr fun x _ => stays_eq x
  rw [opcodes, hstay]
  refine perm_written (fun x e he => ?_) c.pending
  obtain ⟨best, rfl⟩ := dismissal?_eq_some he
  rfl

/-! ### Assigning -/

/-- The verdicts that are written when the leader takes its signature, or when it is fought over,
in their order. -/
def awards (config : MappingConfig) (c : Contest) (leader : Contender) (best : Scored) :
    List (UInt8 × Verdict) :=
  let group := c.claimants config leader best
  if best.signature.unique = true ∧ 1 < group.length then
    group.map fun o => (o, .conflict best.signature.mnemonic group)
  else [(leader.opcode, .resolved best.candidate)]

/-- What an assignment can do: the contest ends for some of the pending opcodes, all with one
verdict, which is not that there is too little evidence. -/
lemma assign_cases (hx : x ∈ c.pending) (hc : c.opcodes.Nodup) :
    ∃ os v, c.awards config x best = os.map (fun o => (o, v))
      ∧ (c.assign config x best).pending = (c.conclude os v).pending
      ∧ (c.assign config x best).verdicts = (c.conclude os v).verdicts
      ∧ os.Nodup ∧ (∀ o ∈ os, o ∈ c.opcodes) ∧ ∀ n, v ≠ .noEvidence n := by
  by_cases hfight : best.signature.unique = true ∧ 1 < (c.claimants config x best).length
  · have hsub : (c.claimants config x best).Sublist c.opcodes := List.filter_sublist.map _
    refine ⟨c.claimants config x best, .conflict best.signature.mnemonic _, if_pos hfight, ?_, ?_,
      hc.sublist hsub, fun o ho => hsub.subset ho, fun n h => by cases h⟩
    all_goals rw [assign, if_pos hfight.1, if_neg (by omega)]; rfl
  · refine ⟨[x.opcode], .resolved best.candidate, if_neg hfight, ?_, ?_, List.nodup_singleton _,
      fun o ho => List.mem_map.mpr ⟨x, hx, (List.mem_singleton.mp ho).symm⟩, fun n h => by cases h⟩
    all_goals
      rw [assign]
      split_ifs with hunique
      · have hone : (c.claimants config x best).length ≤ 1 :=
          Nat.not_lt.mp fun h => hfight ⟨hunique, h⟩
        rw [if_pos hone]
        rfl
      · rfl

lemma verdicts_assign (hx : x ∈ c.pending) (hc : c.opcodes.Nodup) :
    (c.assign config x best).verdicts = c.verdicts.writeAll (c.awards config x best) := by
  obtain ⟨os, v, hawards, -, hverdicts, -⟩ := assign_cases hx hc
  rw [hverdicts, hawards, Ledger.writeAll, List.foldl_map]
  rfl

/-- Whoever is written about is not pending any more. -/
lemma perm_assign (hx : x ∈ c.pending) (hc : c.opcodes.Nodup) :
    ((c.awards config x best).map Prod.fst ++ (c.assign config x best).opcodes).Perm
      c.opcodes := by
  obtain ⟨os, v, hawards, hpending, -, hos, hsub, -⟩ := assign_cases hx hc
  have hrest : (c.assign config x best).opcodes = c.opcodes.filter fun o => !os.contains o := by
    rw [opcodes, hpending, opcodes, List.filter_map]
    rfl
  have hfst : (c.awards config x best).map Prod.fst = os := by
    rw [hawards, List.map_map]
    exact List.map_id os
  rw [hfst, hrest]
  exact perm_taken hc hos hsub

/-! ### The course of a contest -/

section Round

variable (h : (c.dismiss config).leader? config = some (x, best)) (hc : c.opcodes.Nodup)

lemma nodup_dismiss (config : MappingConfig) (hc : c.opcodes.Nodup) :
    (c.dismiss config).opcodes.Nodup :=
  hc.sublist (List.filter_sublist.map _)

include h hc in
/-- A round: the opcodes written about, and those that are pending after it, are together those
that were pending before it. -/
lemma perm_round :
    ((c.dismissals config ++ (c.dismiss config).awards config x best).map Prod.fst
      ++ ((c.dismiss config).assign config x best).opcodes).Perm c.opcodes := by
  rw [List.map_append, List.append_assoc]
  refine (List.Perm.append_left _ ?_).trans perm_dismiss
  exact perm_assign (leader?_spec h).1 (nodup_dismiss config hc)

include h hc in
lemma nodup_round : ((c.dismiss config).assign config x best).opcodes.Nodup :=
  (List.nodup_append'.mp ((perm_round h hc).nodup_iff.mpr hc)).2.1

include h hc in
lemma verdicts_round : ((c.dismiss config).assign config x best).verdicts
    = c.verdicts.writeAll (c.dismissals config ++ (c.dismiss config).awards config x best) := by
  rw [verdicts_assign (leader?_spec h).1 (nodup_dismiss config hc), verdicts_dismiss,
    Ledger.writeAll_append]

end Round

/-- The course of a contest: the rounds it goes through, how many they are, the verdicts that are
written on the way, and where it ends. -/
inductive Course (config : MappingConfig) :
    Contest → ℕ → List (UInt8 × Verdict) → Contest → Prop where
  /-- When contenders are dismissed, and nobody is ready, the contest ends. -/
  | done {c : Contest} (h : (c.dismiss config).leader? config = none) :
      Course config c 0 (c.dismissals config) (c.dismiss config)
  /-- When contenders are dismissed, and somebody leads, there is a verdict and another round. -/
  | round {c d : Contest} {x : Contender} {best : Scored} {n : ℕ} {ws : List (UInt8 × Verdict)}
      (h : (c.dismiss config).leader? config = some (x, best))
      (rest : Course config ((c.dismiss config).assign config x best) n ws d) :
      Course config c (n + 1)
        (c.dismissals config ++ (c.dismiss config).awards config x best ++ ws) d

/-- When somebody leads, the contest goes on from the assignment. -/
lemma run_of_leader? (h : (c.dismiss config).leader? config = some (x, best)) :
    c.run config = ((c.dismiss config).assign config x best).run config := by
  rw [run]
  split
  · rename_i hnone
    cases hnone.symm.trans h
  · rename_i y s hsome
    obtain ⟨rfl, rfl⟩ := Prod.mk.inj (Option.some.inj (hsome.symm.trans h))
    rfl

/-- When nobody leads, the contest is over. -/
lemma run_of_leader?_none (h : (c.dismiss config).leader? config = none) :
    c.run config = c.dismiss config := by
  rw [run]
  split
  · rfl
  · rename_i y s hsome
    cases hsome.symm.trans h

/-- A contest has a course, and ends where that does. -/
lemma exists_course (config : MappingConfig) (c : Contest) :
    ∃ n ws, Course config c n ws (c.run config) := by
  fun_induction Contest.run config c with
  | case1 c d h => exact ⟨0, _, .done h⟩
  | case2 c d x best h ih =>
      obtain ⟨n, ws, hrest⟩ := ih
      exact ⟨n + 1, _, .round h hrest⟩

namespace Course

variable {n : ℕ} {ws : List (UInt8 × Verdict)}

/-- Every round decides on a contender, so there are not more rounds than contenders. -/
lemma rounds_le (h : Course config c n ws d) : n + d.pending.length ≤ c.pending.length := by
  induction h with
  | done h => simpa using pending_dismiss_le config _
  | @round c d x best n ws h rest ih =>
      have hlt : ((c.dismiss config).assign config x best).pending.length
          < (c.dismiss config).pending.length := pending_assign_lt (leader?_spec h).1
      have hle := pending_dismiss_le config c
      omega

/-- The opcodes written about, and those that are pending in the end, are together those that
were pending at the start. -/
lemma perm (h : Course config c n ws d) (hc : c.opcodes.Nodup) :
    (ws.map Prod.fst ++ d.opcodes).Perm c.opcodes := by
  induction h with
  | done h => exact perm_dismiss
  | round h rest ih =>
      rw [List.map_append, List.append_assoc]
      exact ((ih (nodup_round h hc)).append_left _).trans (perm_round h hc)

/-- The verdicts in the end are those at the start and those written. -/
lemma verdicts_eq (h : Course config c n ws d) (hc : c.opcodes.Nodup) :
    d.verdicts = c.verdicts.writeAll ws := by
  induction h with
  | done h => exact verdicts_dismiss
  | round h rest ih => rw [ih (nodup_round h hc), verdicts_round h hc, ← Ledger.writeAll_append]

/-- No verdict of a contest is that there is too little evidence. -/
lemma ne_noEvidence (h : Course config c n ws d) (hc : c.opcodes.Nodup) :
    ∀ e ∈ ws, ∀ k, e.2 ≠ .noEvidence k := by
  have hdismissal : ∀ c : Contest, ∀ e ∈ c.dismissals config, ∀ k, e.2 ≠ .noEvidence k := by
    intro c e he k
    obtain ⟨x, -, hx⟩ := List.mem_filterMap.mp he
    obtain ⟨best, rfl⟩ := dismissal?_eq_some hx
    exact fun h => by cases h
  induction h with
  | done h => exact hdismissal _
  | @round c d x best n ws h rest ih =>
      intro e he
      rcases List.mem_append.mp he with he | he
      · rcases List.mem_append.mp he with he | he
        · exact hdismissal c e he
        · obtain ⟨os, v, hawards, -, -, -, -, hv⟩ :=
            assign_cases (leader?_spec h).1 (nodup_dismiss config hc)
          rw [hawards] at he
          obtain ⟨o, -, rfl⟩ := List.mem_map.mp he
          exact hv
      · exact ih (nodup_round h hc) e he

end Course

/-- The verdicts that are written on what is pending in the end. -/
def leftovers (config : MappingConfig) (c : Contest) : List (UInt8 × Verdict) :=
  c.pending.map fun x => (x.opcode, .ambiguous (tied config c.taken x.ranking))

lemma finish_eq (config : MappingConfig) (c : Contest) :
    c.finish config = c.verdicts.writeAll (c.leftovers config) := by
  rw [finish, Ledger.writeAll, leftovers, List.foldl_map]

end Contest

/-! ### Resolving -/

namespace Resolver

variable {r : Resolver} {profiles : ProfileSet} {known : List UInt8}

/-- The verdict on an opcode of which there is too little evidence. -/
def opening? (r : Resolver) (profiles : ProfileSet) (o : UInt8) : Option (UInt8 × Verdict) :=
  if (r.evidence? profiles o).isSome then none
  else some (o, .noEvidence (((profiles.get? o).map (·.occurrences)).getD 0))

/-- The verdicts that are written before the contest. -/
def openings (r : Resolver) (profiles : ProfileSet) (known : List UInt8) :
    List (UInt8 × Verdict) :=
  (opcodes profiles known).filterMap (r.opening? profiles)

lemma verdicts_start : (r.start profiles known).verdicts = .ofList (r.openings profiles known) := by
  refine Ledger.foldl_eq_writeAll (fun l o => ?_) (opcodes profiles known) .empty
  rw [opening?]
  split_ifs <;> rfl

lemma nodup_opcodes : (opcodes profiles known).Nodup := Ledger.nodup_distinct _

lemma opening?_eq_some_iff {o : UInt8} {e : UInt8 × Verdict} :
    r.opening? profiles o = some e ↔ r.evidence? profiles o = none
      ∧ e = (o, .noEvidence (((profiles.get? o).map (·.occurrences)).getD 0)) := by
  rw [opening?]
  cases r.evidence? profiles o <;> simp [eq_comm]

/-- An opcode starts with a verdict or pending. -/
lemma perm_start :
    ((r.openings profiles known).map Prod.fst ++ (r.start profiles known).opcodes).Perm
      (opcodes profiles known) := by
  have hopcode : ∀ o e, r.opening? profiles o = some e → e.1 = id o := by
    intro o e he
    rw [(opening?_eq_some_iff.mp he).2]
    rfl
  have hpending : (r.start profiles known).opcodes
      = (opcodes profiles known).filter fun o => (r.opening? profiles o).isNone := by
    rw [Contest.opcodes, start]
    induction opcodes profiles known with
    | nil => rfl
    | cons o os ih => cases ho : r.evidence? profiles o <;> simp [opening?, ho, ih]
  have hperm := perm_written hopcode (opcodes profiles known)
  rw [List.map_id, List.map_id] at hperm
  rw [hpending]
  exact hperm

/-- There is too little evidence of an opcode exactly if it has no profile, or one with no
occurrences or fewer than are asked for. -/
lemma evidence?_eq_none_iff {o : UInt8} :
    r.evidence? profiles o = none ↔ profiles.get? o = none
      ∨ ∃ p, profiles.get? o = some p
        ∧ (p.occurrences = 0 ∨ p.occurrences < r.config.minOccurrences) := by
  rw [evidence?]
  cases profiles.get? o with
  | none => simp
  | some p =>
      simp only [Option.filter_eq_none_iff, Option.some.injEq, Bool.and_eq_true,
        decide_eq_true_eq, reduceCtorEq, false_or, exists_eq_left', forall_eq']
      omega

lemma mem_opcodes {o : UInt8} : o ∈ opcodes profiles known ↔ o ∈ profiles.opcodes ∨ o ∈ known := by
  rw [opcodes, Ledger.mem_distinct, List.mem_append]

/-- All verdicts in the order in which they are written, if `written` are those of the contest. -/
def journal (r : Resolver) (profiles : ProfileSet) (known : List UInt8)
    (written : List (UInt8 × Verdict)) : List (UInt8 × Verdict) :=
  r.openings profiles known ++ written
    ++ ((r.start profiles known).run r.config).leftovers r.config

section Journal

variable {n : ℕ} {written : List (UInt8 × Verdict)}
  (h : Contest.Course r.config (r.start profiles known) n written
    ((r.start profiles known).run r.config))

lemma nodup_start : (r.start profiles known).opcodes.Nodup :=
  (List.nodup_append'.mp (perm_start.nodup_iff.mpr nodup_opcodes)).2.1

include h in
/-- The opcodes written about are those to be decided. -/
lemma perm_journal :
    ((r.journal profiles known written).map Prod.fst).Perm (opcodes profiles known) := by
  have hleft : (((r.start profiles known).run r.config).leftovers r.config).map Prod.fst
      = ((r.start profiles known).run r.config).opcodes := by
    rw [Contest.leftovers, List.map_map]
    rfl
  rw [journal, List.map_append, List.map_append, List.append_assoc, hleft]
  exact ((h.perm nodup_start).append_left _).trans perm_start

include h in
/-- The mapping holds the verdicts written. -/
lemma verdicts_resolve :
    (r.resolve profiles known).mapping.verdicts = .ofList (r.journal profiles known written) := by
  have hfinish : (r.resolve profiles known).mapping.verdicts
      = ((r.start profiles known).run r.config).finish r.config := rfl
  rw [hfinish, Contest.finish_eq, h.verdicts_eq nodup_start, verdicts_start, journal,
    Ledger.ofList_eq_writeAll, Ledger.ofList_eq_writeAll, Ledger.writeAll_append,
    Ledger.writeAll_append]

include h in
/-- A verdict of the mapping is one that was written. -/
lemma get?_resolve_iff {o : UInt8} {v : Verdict} :
    (r.resolve profiles known).mapping.get? o = some v
      ↔ (o, v) ∈ r.journal profiles known written := by
  rw [Mapping.get?, verdicts_resolve h,
    Ledger.get?_ofList_eq_some_iff ((perm_journal h).nodup_iff.mpr nodup_opcodes)]

include h in
/-- Too little evidence is a verdict of before the contest only. -/
lemma noEvidence_mem_journal {o : UInt8} {k : ℕ} :
    (o, .noEvidence k) ∈ r.journal profiles known written
      ↔ (o, .noEvidence k) ∈ r.openings profiles known := by
  have hwritten : (o, Verdict.noEvidence k) ∉ written :=
    fun hmem => h.ne_noEvidence nodup_start _ hmem k rfl
  simp [journal, Contest.leftovers, hwritten]

end Journal

/-- There is a verdict on the opcodes met and on those known. -/
lemma isSome_get?_resolve {o : UInt8} :
    ((r.resolve profiles known).mapping.get? o).isSome ↔ o ∈ profiles.opcodes ∨ o ∈ known := by
  obtain ⟨n, written, h⟩ := Contest.exists_course r.config (r.start profiles known)
  rw [Mapping.get?, ← Ledger.mem_keys_iff, verdicts_resolve h, Ledger.mem_keys_ofList,
    (perm_journal h).mem_iff, mem_opcodes]

/-- **Every opcode is decided, once.** The contest ends, after no more rounds than there are
contenders. The mapping holds the verdicts written before, during and after it, and none of them
is on an opcode that was written about before. There is a verdict on exactly the opcodes met and
those known; and it is that there is too little evidence, with the number of occurrences, exactly
for those that have no profile, or occur not at all, or too rarely. -/
theorem resolve_covers (r : Resolver) (profiles : ProfileSet) (known : List UInt8) :
    (∃ rounds written,
      Contest.Course r.config (r.start profiles known) rounds written
        ((r.start profiles known).run r.config)
      ∧ rounds ≤ (r.start profiles known).pending.length
      ∧ (r.resolve profiles known).mapping.verdicts = .ofList (r.journal profiles known written)
      ∧ ((r.journal profiles known written).map Prod.fst).Nodup)
    ∧ (∀ o, ((r.resolve profiles known).mapping.get? o).isSome
        ↔ o ∈ profiles.opcodes ∨ o ∈ known)
    ∧ ∀ o k, (r.resolve profiles known).mapping.get? o = some (.noEvidence k)
        ↔ (o ∈ profiles.opcodes ∨ o ∈ known)
          ∧ k = ((profiles.get? o).map (·.occurrences)).getD 0
          ∧ (profiles.get? o = none ∨ ∃ p, profiles.get? o = some p
            ∧ (p.occurrences = 0 ∨ p.occurrences < r.config.minOccurrences)) := by
  obtain ⟨n, written, h⟩ := Contest.exists_course r.config (r.start profiles known)
  have hperm := perm_journal h
  have hnodup := hperm.nodup_iff.mpr nodup_opcodes
  have hget : ∀ o v, (r.resolve profiles known).mapping.get? o = some v
      ↔ (o, v) ∈ r.journal profiles known written := by
    intro o v
    rw [Mapping.get?, verdicts_resolve h, Ledger.get?_ofList_eq_some_iff hnodup]
  refine ⟨⟨n, written, h, ?_, verdicts_resolve h, hnodup⟩, fun o => ?_, fun o k => ?_⟩
  · have hrounds := h.rounds_le
    omega
  · rw [Option.isSome_iff_exists, ← mem_opcodes, ← hperm.mem_iff, List.mem_map]
    constructor
    · rintro ⟨v, hv⟩
      exact ⟨(o, v), (hget o v).mp hv, rfl⟩
    · rintro ⟨⟨o', v⟩, hmem, rfl⟩
      exact ⟨v, (hget o' v).mpr hmem⟩
  · rw [hget, noEvidence_mem_journal h, openings, List.mem_filterMap, ← mem_opcodes,
      ← evidence?_eq_none_iff]
    simp only [opening?_eq_some_iff, Prod.mk.injEq, Verdict.noEvidence.injEq]
    constructor
    · rintro ⟨o', ho', hnone, rfl, rfl⟩
      exact ⟨ho', rfl, hnone⟩
    · rintro ⟨ho, rfl, hnone⟩
      exact ⟨o, ho, hnone, rfl, rfl⟩

end Resolver

end OpcodeRecovery
