import Mathlib.Tactic
import OpcodeRecovery.Opcode.Resolve
import OpcodeRecovery.Proofs.Ledger

/-!
No two opcodes share an instruction of which there is only one.

* `Exclusive` says it of verdicts: two verdicts about one unique signature are the same verdict,
  and unless they are on the same opcode they are a conflict; and every conflict is shared by
  exactly the opcodes it lists.
* `Contest.Fair` is what every round keeps. A signature that a verdict is about is taken, so it
  is available to nobody; and an opcode that is pending has no verdict, so no verdict is replaced.
* `Contest.Fair.dismiss` and `Contest.Fair.assign` are the steps of a round, `Contest.Fair.run`
  is the contest, and `Resolver.resolve_injective` the outcome.

Scores play no part in it: nothing is assumed about a scorer, a threshold or a margin.
-/

namespace OpcodeRecovery

variable {table : SignatureTable}

/-! ### Exclusive verdicts -/

/-- The instruction that a verdict is about: the one that is named, or fought over. -/
def Verdict.subject? : Verdict → Option String
  | resolved c => some c.mnemonic
  | conflict name _ => some name
  | _ => none

/-- Writing a verdict that is about no instruction adds none that is. -/
lemma get?_insert_of_no_subject {verdicts : Ledger UInt8 Verdict} {o o' : UInt8} {v w : Verdict}
    (hw : w.subject? = none) (h : (verdicts.insert o w).get? o' = some v) :
    verdicts.get? o' = some v ∨ v.subject? = none := by
  rcases Ledger.get?_insert_cases h with h | ⟨-, rfl⟩
  · exact .inl h
  · exact .inr hw

/-- A conflict as it should be: two or more opcodes, ascending, that all have this verdict. -/
structure ConflictGroup (verdicts : Ledger UInt8 Verdict) (name : String) (group : List UInt8) :
    Prop where
  ascending : group.Pairwise (· < ·)
  two_le : 2 ≤ group.length
  shared : ∀ o ∈ group, verdicts.get? o = some (.conflict name group)

/-- Verdicts that give no unique signature to two opcodes, other than in one conflict. -/
structure Exclusive (table : SignatureTable) (verdicts : Ledger UInt8 Verdict) : Prop where
  alike : ∀ {s o₁ o₂ v₁ v₂}, s ∈ table.signatures → s.unique = true →
    verdicts.get? o₁ = some v₁ → v₁.subject? = some s.mnemonic →
    verdicts.get? o₂ = some v₂ → v₂.subject? = some s.mnemonic →
    v₁ = v₂ ∧ (o₁ = o₂ ∨ ∃ group, v₁ = .conflict s.mnemonic group)
  grouped : ∀ {o name group}, verdicts.get? o = some (.conflict name group) →
    (∃ s ∈ table.signatures, s.unique = true ∧ s.mnemonic = name)
      ∧ o ∈ group ∧ ConflictGroup verdicts name group

namespace Exclusive

lemma empty : Exclusive table .empty := by
  constructor
  · intro s o₁ o₂ v₁ v₂ _ _ h
    cases h
  · intro o name group h
    cases h

/-- More verdicts that are about no instruction change nothing. -/
lemma of_extension {verdicts more : Ledger UInt8 Verdict} (h : Exclusive table verdicts)
    (hkeep : ∀ {o v}, verdicts.get? o = some v → more.get? o = some v)
    (hnew : ∀ {o v}, more.get? o = some v → verdicts.get? o = some v ∨ v.subject? = none) :
    Exclusive table more := by
  have hold : ∀ {o v name}, more.get? o = some v → v.subject? = some name →
      verdicts.get? o = some v := by
    intro o v name ho hv
    rcases hnew ho with ho | hnone
    · exact ho
    · rw [hnone] at hv
      cases hv
  constructor
  · intro s o₁ o₂ v₁ v₂ hs hunique h₁ hn₁ h₂ hn₂
    exact h.alike hs hunique (hold h₁ hn₁) hn₁ (hold h₂ hn₂) hn₂
  · intro o name group ho
    obtain ⟨hsig, hmem, hgroup⟩ := h.grouped (hold ho rfl)
    exact ⟨hsig, hmem, hgroup.ascending, hgroup.two_le, fun o' ho' => hkeep (hgroup.shared o' ho')⟩

end Exclusive

/-! ### Fair contests -/

/-- Different places of a table hold different mnemonics. -/
lemma SignatureTable.index_eq (hdistinct : (table.signatures.map (·.mnemonic)).Nodup) {i j : ℕ}
    {s t : Signature} (hs : table.signatures[i]? = some s) (ht : table.signatures[j]? = some t)
    (h : s.mnemonic = t.mnemonic) : i = j := by
  have hi : i < (table.signatures.map (·.mnemonic)).length := by
    rw [List.length_map]
    exact (List.getElem?_eq_some_iff.mp hs).1
  refine (List.getElem?_inj hi hdistinct).mp ?_
  rw [List.getElem?_map, List.getElem?_map, hs, ht, Option.map_some, Option.map_some, h]

namespace Contest

variable {config : MappingConfig} {c : Contest} {x : Contender} {best : Scored}

/-- What every round of a contest keeps. -/
structure Fair (table : SignatureTable) (c : Contest) : Prop where
  ascending : c.pending.Pairwise fun x y => x.opcode < y.opcode
  undecided : ∀ x ∈ c.pending, c.verdicts.get? x.opcode = none
  ranked : ∀ x ∈ c.pending, ∀ s ∈ x.ranking, table.signatures[s.index]? = some s.signature
  exclusive : Exclusive table c.verdicts
  held : ∀ {o v i s}, c.verdicts.get? o = some v → table.signatures[i]? = some s →
    s.unique = true → v.subject? = some s.mnemonic → i ∈ c.taken

namespace Fair

/-- Contenders of the same opcode are the same. -/
lemma eq_of_opcode_eq (hc : c.Fair table) {x y : Contender} (hx : x ∈ c.pending)
    (hy : y ∈ c.pending) (h : x.opcode = y.opcode) : x = y := by
  have hnodup : (c.pending.map (·.opcode)).Nodup :=
    List.pairwise_map.mpr (hc.ascending.imp fun hlt => UInt8.ne_of_lt hlt)
  exact List.inj_on_of_nodup_map hnodup hx hy h

/-- An opcode with a verdict is not pending. -/
lemma opcode_ne (hc : c.Fair table) {o : UInt8} {v : Verdict} (ho : c.verdicts.get? o = some v)
    (hx : x ∈ c.pending) : o ≠ x.opcode := by
  rintro rfl
  rw [hc.undecided x hx] at ho
  cases ho

end Fair

/-! ### Dismissing -/

lemma noteDismissal_of_stays {verdicts : Ledger UInt8 Verdict} (h : c.stays config x = true) :
    c.noteDismissal config verdicts x = verdicts := by
  rw [stays] at h
  rw [noteDismissal]
  split at h
  · cases h
  · rfl

lemma get?_noteDismissal_of_ne {verdicts : Ledger UInt8 Verdict} {o : UInt8} (h : o ≠ x.opcode) :
    (c.noteDismissal config verdicts x).get? o = verdicts.get? o := by
  rw [noteDismissal]
  split
  · exact Ledger.get?_insert_of_ne verdicts _ h
  · rfl

/-- A dismissal writes nothing about an instruction. -/
lemma get?_noteDismissal_cases {verdicts : Ledger UInt8 Verdict} {o : UInt8} {v : Verdict}
    (h : (c.noteDismissal config verdicts x).get? o = some v) :
    verdicts.get? o = some v ∨ v.subject? = none := by
  rw [noteDismissal] at h
  split at h
  · exact get?_insert_of_no_subject rfl h
  · exact .inl h

/-- Dismissing contenders keeps a contest fair. -/
lemma Fair.dismiss (hc : c.Fair table) : (c.dismiss config).Fair table := by
  have hkeep : ∀ {o v}, c.verdicts.get? o = some v →
      (c.dismiss config).verdicts.get? o = some v := by
    intro o v ho
    rw [← ho]
    exact Ledger.get?_foldl_of_frame
      (fun l y hy => get?_noteDismissal_of_ne (hc.opcode_ne ho hy)) c.verdicts
  have hnew : ∀ {o v}, (c.dismiss config).verdicts.get? o = some v →
      c.verdicts.get? o = some v ∨ v.subject? = none :=
    fun ho => Ledger.get?_foldl_cases (fun l y _ v => get?_noteDismissal_cases) ho
  refine ⟨hc.ascending.filter _, ?_, ?_, hc.exclusive.of_extension hkeep hnew, ?_⟩
  · intro x hx
    obtain ⟨hmem, hstays⟩ := List.mem_filter.mp hx
    rw [← hc.undecided x hmem]
    refine Ledger.get?_foldl_of_frame (fun l y hy => ?_) c.verdicts
    by_cases hopcode : x.opcode = y.opcode
    · rw [← hc.eq_of_opcode_eq hmem hy hopcode, noteDismissal_of_stays hstays]
    · exact get?_noteDismissal_of_ne hopcode
  · exact fun x hx => hc.ranked x (List.mem_filter.mp hx).1
  · intro o v i s ho hs hunique hv
    rcases hnew ho with ho | hnone
    · exact hc.held ho hs hunique hv
    · rw [hnone] at hv
      cases hv

/-! ### Assigning -/

/-- A ready contender's best signature is one that is left to it. -/
lemma mem_available_of_ready {taken : List ℕ} {r : Ranking}
    (h : Standing.of config taken r = .ready best) : best ∈ r.available taken := by
  rw [Standing.of] at h
  cases hleft : r.available taken with
  | nil =>
      rw [hleft] at h
      cases h
  | cons s others =>
      rw [hleft] at h
      dsimp only at h
      split_ifs at h with hlow
      cases others with
      | nil =>
          obtain rfl := Standing.ready.inj h
          exact List.mem_cons_self
      | cons next rest =>
          dsimp only at h
          split_ifs at h with hclose
          obtain rfl := Standing.ready.inj h
          exact List.mem_cons_self

lemma mem_available_iff {taken : List ℕ} {r : Ranking} :
    best ∈ r.available taken
      ↔ best ∈ r ∧ (best.signature.unique = true → best.index ∉ taken) := by
  rw [Ranking.available, List.mem_filter]
  simp only [Bool.or_eq_true, Bool.not_eq_true', List.contains_eq_mem, decide_eq_false_iff_not]
  cases best.signature.unique <;> simp

/-- A signature of the table that may still be chosen. -/
structure Open (table : SignatureTable) (c : Contest) (s : Scored) : Prop where
  listed : table.signatures[s.index]? = some s.signature
  free : s.signature.unique = true → s.index ∉ c.taken

/-- The signature that the leader takes is open. -/
lemma Fair.open_of_leader? (hc : c.Fair table) (h : c.leader? config = some (x, best)) :
    x ∈ c.pending ∧ c.Open table best := by
  obtain ⟨hx, hready⟩ := leader?_spec h
  obtain ⟨hbest, hfree⟩ := mem_available_iff.mp (mem_available_of_ready hready)
  exact ⟨hx, hc.ranked x hx best hbest, hfree⟩

/-- No verdict is about an open signature of which there is only one. -/
lemma Fair.subject_ne (hc : c.Fair table) (hopen : c.Open table best)
    (hunique : best.signature.unique = true) {o : UInt8} {v : Verdict}
    (ho : c.verdicts.get? o = some v) : v.subject? ≠ some best.signature.mnemonic :=
  fun hv => hopen.free hunique (hc.held ho hopen.listed hunique hv)

/-- What a verdict on some opcodes must be like when the contest for a signature ends for them:
it names the signature for one opcode, or it is a conflict of them over a unique one. -/
inductive Concludes (s : Signature) : List UInt8 → Verdict → Prop where
  | resolved {o : UInt8} {candidate : Candidate} (hname : candidate.mnemonic = s.mnemonic) :
      Concludes s [o] (.resolved candidate)
  | conflict {group : List UInt8} (hunique : s.unique = true) (hasc : group.Pairwise (· < ·))
      (htwo : 2 ≤ group.length) : Concludes s group (.conflict s.mnemonic group)

lemma Concludes.subject? {s : Signature} {opcodes : List UInt8} {v : Verdict}
    (h : Concludes s opcodes v) : v.subject? = some s.mnemonic := by
  cases h with
  | resolved hname => rw [Verdict.subject?, hname]
  | conflict => rfl

lemma get?_conclude (c : Contest) (opcodes : List UInt8) (v : Verdict) (o : UInt8) :
    (c.conclude opcodes v).verdicts.get? o = if o ∈ opcodes then some v else c.verdicts.get? o :=
  Ledger.get?_foldl_insert opcodes v c.verdicts o

/-- A signature of the same mnemonic as an open one is that one. -/
lemma Open.eq_of_mnemonic_eq (hopen : c.Open table best)
    (hdistinct : (table.signatures.map (·.mnemonic)).Nodup) {i : ℕ} {s : Signature}
    (hs : table.signatures[i]? = some s) (h : best.signature.mnemonic = s.mnemonic) :
    best.index = i ∧ best.signature = s := by
  obtain rfl := SignatureTable.index_eq hdistinct hopen.listed hs h
  exact ⟨rfl, Option.some.inj (hopen.listed.symm.trans hs)⟩

section Conclude

variable (hc : c.Fair table) (hdistinct : (table.signatures.map (·.mnemonic)).Nodup)
  (hopen : c.Open table best) {opcodes : List UInt8} {v : Verdict}
  (hpending : ∀ o ∈ opcodes, ∃ x ∈ c.pending, x.opcode = o)
  (hv : Concludes best.signature opcodes v)

include hc hdistinct hopen hv in
/-- After the conclusion, too, verdicts about one unique signature are alike: they are all new,
or all old. -/
lemma alike_conclude {s : Signature} {o₁ o₂ : UInt8} {v₁ v₂ : Verdict}
    (hs : s ∈ table.signatures) (hunique : s.unique = true)
    (h₁ : (c.conclude opcodes v).verdicts.get? o₁ = some v₁) (hn₁ : v₁.subject? = some s.mnemonic)
    (h₂ : (c.conclude opcodes v).verdicts.get? o₂ = some v₂) (hn₂ : v₂.subject? = some s.mnemonic) :
    v₁ = v₂ ∧ (o₁ = o₂ ∨ ∃ group, v₁ = .conflict s.mnemonic group) := by
  have hsubject := hv.subject?
  -- if the new verdict is about `s`, no old one is
  have hnew : ∀ {o u}, c.verdicts.get? o = some u → v.subject? = some s.mnemonic →
      u.subject? ≠ some s.mnemonic := by
    intro o u ho hvs
    obtain ⟨i, hi⟩ := List.mem_iff_getElem?.mp hs
    obtain ⟨-, rfl⟩ := hopen.eq_of_mnemonic_eq hdistinct hi
      (Option.some.inj (hsubject.symm.trans hvs))
    exact hc.subject_ne hopen hunique ho
  rw [get?_conclude] at h₁ h₂
  split_ifs at h₁ h₂ with ho₁ ho₂ ho₂
  · obtain rfl := Option.some.inj h₁
    obtain rfl := Option.some.inj h₂
    refine ⟨rfl, ?_⟩
    cases hv with
    | resolved _ => exact .inl ((List.mem_singleton.mp ho₁).trans (List.mem_singleton.mp ho₂).symm)
    | conflict =>
        rw [Option.some.inj (hsubject.symm.trans hn₁)]
        exact .inr ⟨_, rfl⟩
  · obtain rfl := Option.some.inj h₁
    exact absurd hn₂ (hnew h₂ hn₁)
  · obtain rfl := Option.some.inj h₂
    exact absurd hn₁ (hnew h₁ hn₂)
  · exact hc.exclusive.alike hs hunique h₁ hn₁ h₂ hn₂

include hc hopen hpending hv in
/-- After the conclusion, too, every conflict is shared by the opcodes it lists. -/
lemma grouped_conclude {o : UInt8} {name : String} {group : List UInt8}
    (h : (c.conclude opcodes v).verdicts.get? o = some (.conflict name group)) :
    (∃ s ∈ table.signatures, s.unique = true ∧ s.mnemonic = name)
      ∧ o ∈ group ∧ ConflictGroup (c.conclude opcodes v).verdicts name group := by
  rw [get?_conclude] at h
  split_ifs at h with ho
  · obtain rfl := Option.some.inj h
    cases hv with
    | conflict hunique hasc htwo =>
        have hlisted : best.signature ∈ table.signatures := List.mem_of_getElem? hopen.listed
        refine ⟨⟨best.signature, hlisted, hunique, rfl⟩, ho, hasc, htwo, ?_⟩
        intro o' ho'
        rw [get?_conclude, if_pos ho']
  · obtain ⟨hsig, hmem, hgroup⟩ := hc.exclusive.grouped h
    refine ⟨hsig, hmem, hgroup.ascending, hgroup.two_le, ?_⟩
    intro o' ho'
    have hold := hgroup.shared o' ho'
    -- whoever is in an old conflict is not pending any more
    have hout : o' ∉ opcodes := by
      intro hmem'
      obtain ⟨x, hx, hopcode⟩ := hpending o' hmem'
      exact hc.opcode_ne hold hx hopcode.symm
    rw [get?_conclude, if_neg hout, hold]

include hc hdistinct hopen hpending hv in
/-- A verdict about an open signature keeps a contest fair, if the signature is taken from then
on. -/
lemma Fair.conclude {taken : List ℕ} (hkeep : ∀ i ∈ c.taken, i ∈ taken)
    (htaken : best.signature.unique = true → best.index ∈ taken) :
    Fair table { c.conclude opcodes v with taken := taken } := by
  refine ⟨hc.ascending.filter _, ?_, ?_, ⟨?_, ?_⟩, ?_⟩
  · intro x hx
    obtain ⟨hmem, hout⟩ := List.mem_filter.mp hx
    rw [get?_conclude, if_neg (by simpa using hout), hc.undecided x hmem]
  · exact fun x hx => hc.ranked x (List.mem_filter.mp hx).1
  · exact alike_conclude hc hdistinct hopen hv
  · exact grouped_conclude hc hopen hpending hv
  · intro o u i s ho hs hunique hu
    rw [get?_conclude] at ho
    split_ifs at ho with hmem
    · obtain rfl := Option.some.inj ho
      obtain ⟨rfl, rfl⟩ := hopen.eq_of_mnemonic_eq hdistinct hs
        (Option.some.inj (hv.subject?.symm.trans hu))
      exact htaken hunique
    · exact hkeep i (hc.held ho hs hunique hu)

end Conclude

/-- The claimants are pending, and ascending. -/
lemma claimants_spec (hc : c.Fair table) (config : MappingConfig) (x : Contender)
    (best : Scored) :
    (c.claimants config x best).Pairwise (· < ·)
      ∧ ∀ o ∈ c.claimants config x best, ∃ y ∈ c.pending, y.opcode = o := by
  constructor
  · exact List.pairwise_map.mpr (hc.ascending.filter _)
  · intro o ho
    obtain ⟨y, hy, rfl⟩ := List.mem_map.mp ho
    exact ⟨y, (List.mem_filter.mp hy).1, rfl⟩

/-- An assignment keeps a contest fair. -/
lemma Fair.assign (hc : c.Fair table) (hdistinct : (table.signatures.map (·.mnemonic)).Nodup)
    (h : c.leader? config = some (x, best)) : (c.assign config x best).Fair table := by
  obtain ⟨hx, hopen⟩ := hc.open_of_leader? h
  have hleader : ∀ o ∈ [x.opcode], ∃ y ∈ c.pending, y.opcode = o :=
    fun o ho => ⟨x, hx, (List.mem_singleton.mp ho).symm⟩
  have hname : best.candidate.mnemonic = best.signature.mnemonic := rfl
  have hkeep : ∀ i ∈ c.taken, i ∈ best.index :: c.taken := fun i hi => List.mem_cons_of_mem _ hi
  rw [Contest.assign]
  split_ifs with hunique
  · dsimp only
    split_ifs with hone
    · exact hc.conclude hdistinct hopen hleader (.resolved hname) hkeep fun _ => List.mem_cons_self
    · obtain ⟨hasc, hpending⟩ := claimants_spec hc config x best
      have hfair : Fair table
          { c.conclude (c.claimants config x best)
              (.conflict best.signature.mnemonic (c.claimants config x best)) with
            taken := best.index :: c.taken } :=
        hc.conclude hdistinct hopen hpending (.conflict hunique hasc (by omega)) hkeep
          fun _ => List.mem_cons_self
      exact ⟨hfair.ascending, hfair.undecided, hfair.ranked, hfair.exclusive, hfair.held⟩
  · exact hc.conclude hdistinct hopen hleader (.resolved hname) (fun i hi => hi)
      fun h => absurd h hunique

/-! ### The whole contest -/

/-- A contest stays fair to its end. -/
lemma Fair.run (hc : c.Fair table) (hdistinct : (table.signatures.map (·.mnemonic)).Nodup) :
    (c.run config).Fair table := by
  fun_induction Contest.run config c with
  | case1 c d h => exact hc.dismiss
  | case2 c d x best h ih => exact ih (hc.dismiss.assign hdistinct h)

/-- The verdicts of a fair contest are exclusive, those on what is pending in the end included. -/
lemma Fair.exclusive_finish (hc : c.Fair table) : Exclusive table (c.finish config) := by
  refine hc.exclusive.of_extension (fun {o v} ho => ?_) (fun {o v} ho => ?_)
  · rw [← ho]
    exact Ledger.get?_foldl_of_frame
      (fun l y hy => Ledger.get?_insert_of_ne l _ (hc.opcode_ne ho hy)) c.verdicts
  · exact Ledger.get?_foldl_cases (P := fun v => v.subject? = none)
      (fun l y _ v hv => get?_insert_of_no_subject rfl hv) ho

end Contest

/-! ### The outcome -/

namespace Resolver

/-- A ranking is made of the signatures of the table. -/
lemma signature_of_mem_ranking {scorer : Scorer} {f : Features} {s : Scored}
    (h : s ∈ Ranking.ofFeatures table scorer f) :
    table.signatures[s.index]? = some s.signature := by
  rw [Ranking.ofFeatures, List.mem_mergeSort, Ranking.scores] at h
  obtain ⟨⟨signature, i⟩, hmem, rfl⟩ := List.mem_map.mp h
  exact List.mem_zipIdx_iff_getElem?.mp hmem

/-- A contest starts fair. -/
lemma fair_start (r : Resolver) (profiles : ProfileSet) (known : List UInt8) :
    (r.start profiles known).Fair r.signatures := by
  have hcontender : ∀ x ∈ (r.start profiles known).pending,
      ∃ p, r.evidence? profiles x.opcode = some p
        ∧ x.ranking = Ranking.ofFeatures r.signatures r.scorer (Features.ofProfile profiles p) := by
    intro x hx
    obtain ⟨o, -, ho⟩ := List.mem_filterMap.mp hx
    obtain ⟨p, hp, rfl⟩ := Option.map_eq_some_iff.mp ho
    exact ⟨p, hp, rfl⟩
  have hverdict : ∀ {o v}, (r.start profiles known).verdicts.get? o = some v →
      v.subject? = none := by
    intro o v ho
    refine (Ledger.get?_foldl_cases (P := fun v => v.subject? = none) (fun l a _ u hu => ?_)
      ho).resolve_left (by simp)
    split_ifs at hu with hevidence
    · exact .inl hu
    · exact get?_insert_of_no_subject rfl hu
  constructor
  · refine (Ledger.pairwise_distinct (profiles.opcodes ++ known)).filterMap _ ?_
    intro a b hlt x hx y hy
    obtain ⟨p, -, rfl⟩ := Option.map_eq_some_iff.mp hx
    obtain ⟨q, -, rfl⟩ := Option.map_eq_some_iff.mp hy
    exact UInt8.lt_iff_toNat_lt.mpr hlt
  · intro x hx
    obtain ⟨p, hp, -⟩ := hcontender x hx
    -- opcodes with evidence get no verdict at the start
    refine Ledger.get?_foldl_of_frame (fun l a _ => ?_) .empty
    split_ifs with hevidence
    · rfl
    · refine Ledger.get?_insert_of_ne l _ ?_
      rintro rfl
      exact hevidence (by rw [hp]; rfl)
  · intro x hx s hs
    obtain ⟨p, -, hranking⟩ := hcontender x hx
    rw [hranking] at hs
    exact signature_of_mem_ranking hs
  · exact Exclusive.empty.of_extension (fun h => by cases h) fun h => .inr (hverdict h)
  · intro o v i s ho _ _ hv
    rw [hverdict ho] at hv
    cases hv

/-- **The mapping is injective.** Each unique signature is named for at most one opcode. If a
signature is fought over, it is named for none, and it is fought over by one group only: two or
more opcodes, ascending, which all have the same verdict, and no others. -/
theorem resolve_injective (r : Resolver) (profiles : ProfileSet) (known : List UInt8)
    (hdistinct : (r.signatures.signatures.map (·.mnemonic)).Nodup) :
    (∀ s ∈ r.signatures.signatures, s.unique = true → ∀ o₁ o₂ c₁ c₂,
      (r.resolve profiles known).mapping.get? o₁ = some (.resolved c₁) →
      c₁.mnemonic = s.mnemonic →
      (r.resolve profiles known).mapping.get? o₂ = some (.resolved c₂) →
      c₂.mnemonic = s.mnemonic → o₁ = o₂)
    ∧ ∀ o name group,
      (r.resolve profiles known).mapping.get? o = some (.conflict name group) →
      (∀ o' c, (r.resolve profiles known).mapping.get? o' = some (.resolved c) →
        c.mnemonic ≠ name)
      ∧ (∀ o' ∈ group,
        (r.resolve profiles known).mapping.get? o' = some (.conflict name group))
      ∧ group.Pairwise (· < ·) ∧ 2 ≤ group.length ∧ o ∈ group
      ∧ ∀ o' group', (r.resolve profiles known).mapping.get? o' = some (.conflict name group') →
        group' = group := by
  have hexclusive : Exclusive r.signatures (r.resolve profiles known).mapping.verdicts :=
    ((fair_start r profiles known).run hdistinct).exclusive_finish
  constructor
  · intro s hs hunique o₁ o₂ c₁ c₂ h₁ hn₁ h₂ hn₂
    obtain ⟨-, heq | ⟨group, hgroup⟩⟩ := hexclusive.alike hs hunique h₁
      (congrArg some hn₁) h₂ (congrArg some hn₂)
    · exact heq
    · cases hgroup
  · intro o name group h
    obtain ⟨⟨s, hs, hunique, rfl⟩, hmem, hgroup⟩ := hexclusive.grouped h
    refine ⟨?_, hgroup.shared, hgroup.ascending, hgroup.two_le, hmem, ?_⟩
    · intro o' c h' hname
      obtain ⟨heq, -⟩ := hexclusive.alike hs hunique h rfl h' (congrArg some hname)
      cases heq
    · intro o' group' h'
      obtain ⟨heq, -⟩ := hexclusive.alike hs hunique h' rfl h rfl
      exact (Verdict.conflict.inj heq).2

/-- One signature that everything fits. -/
def sample : Resolver where
  signatures := ⟨1, [SignatureTable.plain "pop" .none 1 0]⟩
  scorer _ _ := 1.0
  config := .default

/-- Two opcodes, each met once. -/
def sampleProfiles : ProfileSet where
  profiles := .ofList ([1, 2].map fun o => (o, { opcode := o, occurrences := 1 }))
  methods := 1
  instructions := 2

theorem resolve_injective_sample :
    (sample.signatures.signatures.map (·.mnemonic)).Nodup
      ∧ (sample.resolve sampleProfiles [9]).mapping.get? 1 = some (.conflict "pop" [1, 2])
      ∧ (∀ o' c, (sample.resolve sampleProfiles [9]).mapping.get? o' = some (.resolved c) →
        c.mnemonic ≠ "pop")
      ∧ (∀ o' ∈ [1, 2],
        (sample.resolve sampleProfiles [9]).mapping.get? o' = some (.conflict "pop" [1, 2]))
      ∧ ∀ o' group',
        (sample.resolve sampleProfiles [9]).mapping.get? o' = some (.conflict "pop" group') →
        group' = [1, 2] := by
  have hdistinct : (sample.signatures.signatures.map (·.mnemonic)).Nodup := by decide
  have hconflict :
      (sample.resolve sampleProfiles [9]).mapping.get? 1 = some (.conflict "pop" [1, 2]) := by
    with_unfolding_all rfl
  obtain ⟨hnone, hshared, -, -, -, honly⟩ :=
    (resolve_injective sample sampleProfiles [9] hdistinct).2 1 "pop" [1, 2] hconflict
  exact ⟨hdistinct, hconflict, hnone, hshared, honly⟩

end Resolver

end OpcodeRecovery
