import Mathlib
import OpcodeRecovery.Proofs.Opcode.Arithmetic
import OpcodeRecovery.Proofs.Opcode.Coverage
import OpcodeRecovery.Proofs.Opcode.Injectivity
import OpcodeRecovery.Proofs.Opcode.Standing

/-!
Every verdict is justified by the mapping as it is in the end, although it was reached in some
round, when fewer signatures were gone.

* `Mapping.Spent` is a unique signature that is named for another opcode, or fought over.
  `Mapping.Leaves` is the best signature in a ranking, spent ones apart.
* `Contest.Reached` is where a contest can be at the start of a round, with the verdicts written by
  then. `Contest.Explained` is what every round keeps: whatever is taken is the subject of a verdict
  that was written, on an opcode that is not pending any more. So what is not left to a contender is
  spent (`Contest.Explained.spent`).
* Every verdict was written at the start of a round, or by its leader, or in the end
  (`Contest.Course.source`, `Contest.Course.ended`). Who cannot decide in the end has the best
  signature that is left as first candidate (`Contest.head?_tied`).
* `Justified` collects the reasons for each kind of verdict, and `Resolver.resolve_justified` says
  that every opcode with enough evidence has its verdict for such a reason.
-/

namespace OpcodeRecovery

namespace Mapping

/-- A signature that an opcode cannot have: there is only one of it, and it is named for another
opcode, or other opcodes fight over it. -/
def Spent (m : Mapping) (o : UInt8) (s : Signature) : Prop :=
  s.unique = true ∧ ∃ o' v, o' ≠ o ∧ m.get? o' = some v ∧ v.subject? = some s.mnemonic

/-- The signature is the first one in a ranking, apart from those that are spent. -/
def Leaves (m : Mapping) (o : UInt8) (r : Ranking) (best : Scored) : Prop :=
  ∃ above below, r = above ++ best :: below ∧ ∀ s ∈ above, m.Spent o s.signature

end Mapping

namespace Contest

variable {table : SignatureTable} {config : MappingConfig} {c d : Contest} {x : Contender}
  {best : Scored} {written : List (UInt8 × Verdict)}

/-! ### The rounds of a contest -/

/-- Where a contest is at the start of a round, and the verdicts that were written by then. -/
inductive Reached (config : MappingConfig) (c : Contest) :
    List (UInt8 × Verdict) → Contest → Prop where
  | start : Reached config c [] c
  | round {written : List (UInt8 × Verdict)} {d : Contest} {x : Contender} {best : Scored}
      (h : Reached config c written d)
      (hlead : (d.dismiss config).leader? config = some (x, best)) :
      Reached config c
        (written ++ (d.dismissals config ++ (d.dismiss config).awards config x best))
        ((d.dismiss config).assign config x best)

section Split

variable {c₀ : Contest} {n : ℕ} {old : List (UInt8 × Verdict)}

/-- A contest ends in a round in which nobody leads. -/
lemma Course.ended (h : Course config c n written d) (hreached : Reached config c₀ old c) :
    ∃ ws b, Reached config c₀ ws b ∧ old ++ written = ws ++ b.dismissals config
      ∧ (b.dismiss config).leader? config = none ∧ d = b.dismiss config := by
  induction h generalizing old with
  | @done c h => exact ⟨old, c, hreached, rfl, h, rfl⟩
  | @round c d x best n ws h rest ih =>
      obtain ⟨ws', b, hws, heq, hlead⟩ := ih (hreached.round h)
      exact ⟨ws', b, hws, by rw [← heq, ← List.append_assoc old], hlead⟩

/-- A verdict is written when contenders are dismissed, or when somebody leads. -/
lemma Course.source (h : Course config c n written d) (hreached : Reached config c₀ old c)
    {e : UInt8 × Verdict} (he : e ∈ written) :
    ∃ ws b, Reached config c₀ ws b ∧ ws ⊆ old ++ written
      ∧ (e ∈ b.dismissals config ∨ ∃ x best, (b.dismiss config).leader? config = some (x, best)
        ∧ e ∈ (b.dismiss config).awards config x best) := by
  induction h generalizing old with
  | @done c h => exact ⟨old, c, hreached, List.subset_append_left _ _, .inl he⟩
  | @round c d x best n ws h rest ih =>
      rcases List.mem_append.mp he with he | he
      · refine ⟨old, c, hreached, List.subset_append_left _ _, ?_⟩
        rcases List.mem_append.mp he with he | he
        · exact .inl he
        · exact .inr ⟨x, best, h, he⟩
      · obtain ⟨ws', b, hws, hsub, hcase⟩ := ih (hreached.round h) he
        exact ⟨ws', b, hws, by simpa using hsub, hcase⟩

end Split

/-! ### What is taken is spent -/

/-- A signature that the leader takes is gone if it is unique. -/
lemma taken_assign (config : MappingConfig) (c : Contest) (x : Contender) (best : Scored) :
    (c.assign config x best).taken
      = if best.signature.unique then best.index :: c.taken else c.taken := by
  rw [assign]
  split_ifs
  · dsimp only
    split_ifs <;> rfl
  · rfl

lemma pending_assign_subset (config : MappingConfig) (c : Contest) (x : Contender) (best : Scored) :
    (c.assign config x best).pending ⊆ c.pending := by
  rw [assign]
  split_ifs
  · dsimp only
    split_ifs <;> exact List.filter_sublist.subset
  · exact List.filter_sublist.subset

/-- Nobody joins a contest. -/
lemma Reached.pending_subset (h : Reached config c written d) : d.pending ⊆ c.pending := by
  induction h with
  | start => exact List.Subset.refl _
  | round h hlead ih =>
      refine List.Subset.trans (pending_assign_subset config _ _ _) ?_
      exact List.Subset.trans List.filter_sublist.subset ih

/-- Some verdict is about the signature that the leader takes. -/
lemma exists_award (config : MappingConfig) (c : Contest) (x : Contender) (best : Scored) :
    ∃ e ∈ c.awards config x best, e.2.subject? = some best.signature.mnemonic := by
  rw [awards]
  split_ifs with hfight
  · obtain ⟨o, ho⟩ := List.exists_mem_of_length_pos (Nat.zero_lt_of_lt hfight.2)
    exact ⟨_, List.mem_map_of_mem ho, rfl⟩
  · exact ⟨_, List.mem_singleton_self _, rfl⟩

/-- What every round of a contest keeps, beside fairness: whoever is pending has no verdict yet, and
a signature is gone only if a verdict is about it. -/
structure Explained (table : SignatureTable) (c : Contest) (written : List (UInt8 × Verdict))
    (d : Contest) : Prop where
  fair : d.Fair table
  perm : (written.map Prod.fst ++ d.opcodes).Perm c.opcodes
  taken : ∀ i ∈ d.taken, ∃ s, table.signatures[i]? = some s
    ∧ ∃ e ∈ written, e.2.subject? = some s.mnemonic

lemma Fair.nodup_opcodes (h : c.Fair table) : c.opcodes.Nodup :=
  List.pairwise_map.mpr (h.ascending.imp fun hlt => UInt8.ne_of_lt hlt)

namespace Explained

/-- One round. -/
lemma round (h : Explained table c written d)
    (hdistinct : (table.signatures.map (·.mnemonic)).Nodup)
    (hlead : (d.dismiss config).leader? config = some (x, best)) :
    Explained table c
      (written ++ (d.dismissals config ++ (d.dismiss config).awards config x best))
      ((d.dismiss config).assign config x best) := by
  refine ⟨h.fair.dismiss.assign hdistinct hlead, ?_, ?_⟩
  · rw [List.map_append, List.append_assoc]
    exact ((perm_round hlead h.fair.nodup_opcodes).append_left _).trans h.perm
  · intro i hi
    have hcases : i = best.index ∨ i ∈ d.taken := by
      rw [taken_assign] at hi
      split_ifs at hi
      · exact List.mem_cons.mp hi
      · exact .inr hi
    rcases hcases with rfl | hi
    · obtain ⟨e, he, hsubject⟩ := exists_award config (d.dismiss config) x best
      refine ⟨_, (h.fair.dismiss.open_of_leader? hlead).2.listed, e, ?_, hsubject⟩
      exact List.mem_append_right _ (List.mem_append_right _ he)
    · obtain ⟨s, hs, e, he, hsubject⟩ := h.taken i hi
      exact ⟨s, hs, e, List.mem_append_left _ he, hsubject⟩

/-- What is not left to a contender is spent, if the verdicts written are those of a mapping. -/
lemma spent (h : Explained table c written d) (hc : c.opcodes.Nodup) {m : Mapping}
    (hm : ∀ e ∈ written, m.get? e.1 = some e.2) (hx : x ∈ d.pending) {s : Scored}
    (hs : s ∈ x.ranking) (hgone : s.signature.unique = true ∧ s.index ∈ d.taken) :
    m.Spent x.opcode s.signature := by
  obtain ⟨hunique, htaken⟩ := hgone
  obtain ⟨t, ht, e, he, hsubject⟩ := h.taken s.index htaken
  obtain rfl := Option.some.inj (ht.symm.trans (h.fair.ranked x hx s hs))
  refine ⟨hunique, e.1, e.2, fun hsame => ?_, hm e he, hsubject⟩
  -- whoever is pending was not written about
  obtain ⟨-, -, hdisjoint⟩ := List.nodup_append'.mp (h.perm.nodup_iff.mpr hc)
  exact hdisjoint (List.mem_map_of_mem he) (hsame ▸ List.mem_map_of_mem hx)

/-- The best signature that is left to a contender is the first one that is not spent. -/
lemma leaves (h : Explained table c written d) (hc : c.opcodes.Nodup) {m : Mapping}
    (hm : ∀ e ∈ written, m.get? e.1 = some e.2) (hx : x ∈ d.pending) {rest : Ranking}
    (hleft : x.ranking.available d.taken = best :: rest) : m.Leaves x.opcode x.ranking best := by
  obtain ⟨above, below, hr, -, -, habove⟩ := Ranking.of_available_eq_cons hleft
  refine ⟨above, below, hr, fun s hs => h.spent hc hm hx ?_ (habove s hs)⟩
  rw [hr]
  exact List.mem_append_left _ hs

end Explained

/-- All rounds. -/
lemma Reached.explained (h : Reached config c written d) (hc : c.Fair table)
    (hdistinct : (table.signatures.map (·.mnemonic)).Nodup) (htaken : c.taken = []) :
    Explained table c written d := by
  induction h with
  | start => exact ⟨hc, .refl _, by simp [htaken]⟩
  | round h hlead ih => exact ih.round hdistinct hlead

/-! ### Where verdicts come from -/

/-- A verdict on a contender that is out. -/
lemma of_mem_dismissals {e : UInt8 × Verdict} (h : e ∈ c.dismissals config) :
    ∃ x ∈ c.pending, ∃ best, Stands config (x.ranking.available c.taken) (.dismissed best)
      ∧ e = (x.opcode, .lowConfidence (best.map (·.candidate))) := by
  obtain ⟨x, hx, he⟩ := List.mem_filterMap.mp h
  rw [dismissal?] at he
  split at he
  · rename_i best hstanding
    exact ⟨x, hx, best, standing_eq_iff.mp hstanding, (Option.some.inj he).symm⟩
  · cases he

/-- A verdict that is written when somebody leads: on the leader, or on somebody for whom the same
signature is the best one left. -/
lemma of_mem_awards (hc : c.Fair table) (hlead : c.leader? config = some (x, best))
    {e : UInt8 × Verdict} (h : e ∈ c.awards config x best) :
    e = (x.opcode, .resolved best.candidate)
      ∨ ∃ y ∈ c.pending, ∃ s rest group, y.ranking.available c.taken = s :: rest
        ∧ s.signature = best.signature
        ∧ e = (y.opcode, .conflict best.signature.mnemonic group) := by
  obtain ⟨hx, hready⟩ := leader?_spec hlead
  rw [awards] at h
  split_ifs at h with hfight
  · obtain ⟨o, ho, rfl⟩ := List.mem_map.mp h
    obtain ⟨y, hy, rfl⟩ := List.mem_map.mp ho
    obtain ⟨hy, hclaim⟩ := List.mem_filter.mp hy
    refine .inr ⟨y, hy, ?_⟩
    rcases (Bool.or_eq_true _ _).mp hclaim with hsame | hrival
    · obtain rfl := hc.eq_of_opcode_eq hy hx (eq_of_beq hsame)
      have hstands := standing_eq_iff.mp hready
      generalize hleft : y.ranking.available c.taken = left at hstands
      cases hstands with
      | @clear _ rest hhigh hclear => exact ⟨best, rest, _, rfl, rfl, rfl⟩
    · rw [isRival] at hrival
      cases hleft : y.ranking.available c.taken with
      | nil =>
          rw [hleft] at hrival
          cases hrival
      | cons s rest =>
          rw [hleft] at hrival
          have hindex : s.index = best.index := by simpa using ((Bool.and_eq_true _ _).mp hrival).1
          have hs : s ∈ y.ranking :=
            (mem_available_iff.mp (hleft ▸ List.mem_cons_self)).1
          have hlisted := hc.ranked y hy s hs
          rw [hindex, (hc.open_of_leader? hlead).2.listed] at hlisted
          exact ⟨s, rest, _, rfl, (Option.some.inj hlisted).symm, rfl⟩
  · exact .inl (List.mem_singleton.mp h)

/-- What is pending in the end waits: it is neither dismissed nor ready. -/
lemma waits_of_leader? (hnone : (c.dismiss config).leader? config = none)
    (hx : x ∈ (c.dismiss config).pending) :
    ∃ best next rest, x.ranking.available c.taken = best :: next :: rest
      ∧ ¬ best.score < config.threshold ∧ best.score - next.score < config.tieMargin := by
  have hready : ∀ best, c.standing config x ≠ .ready best := not_ready_of_leader? hnone hx
  have hstays := (List.mem_filter.mp hx).2
  rw [stays] at hstays
  have hstands : Stands config (x.ranking.available c.taken) (c.standing config x) :=
    standing_eq_iff.mp rfl
  generalize c.standing config x = st at hstands hready hstays
  generalize x.ranking.available c.taken = left at hstands
  cases hstands with
  | bare => cases hstays
  | low hlow => cases hstays
  | clear hhigh hclear => exact absurd rfl (hready _)
  | close hhigh hclose => exact ⟨_, _, _, rfl, hhigh, hclose⟩

/-- The signatures between which a contender cannot decide start with the best one left, which is as
close to itself as any other one is to it. -/
lemma head?_tied {scorer : Scorer} {f : Features} {taken : List ℕ} {next : Scored} {rest : Ranking}
    (hleft : (Ranking.ofFeatures table scorer f).available taken = best :: next :: rest)
    (hclose : best.score - next.score < config.tieMargin) :
    (tied config taken (Ranking.ofFeatures table scorer f)).head? = some best.candidate := by
  have hsub : (best :: next :: rest).Sublist (Ranking.ofFeatures table scorer f) :=
    hleft ▸ List.filter_sublist
  have hrated (s : Scored) (hs : s ∈ best :: next :: rest) :
      Score.Rated (scorer f s.signature) s.score :=
    Score.rated_iff.mpr (Ranking.mem_ofFeatures_iff.mp (hsub.subset hs)).2
  have hlow := (hrated next (by simp)).level_bounds.1
  have hhigh := (hrated best (by simp)).level_bounds.2
  have hle : Score.level next.score ≤ Score.level best.score := by
    have hbefore : best.before next = true :=
      List.rel_of_pairwise_cons ((Ranking.pairwise_ofFeatures table scorer f).sublist hsub) (by simp)
    rw [Scored.before_iff] at hbefore
    exact Score.level_le_of_orderKey_le (by omega)
  have hself : best.score - best.score < config.tieMargin :=
    Score.sub_self_lt hlow hle (hhigh.trans_lt (by decide)) hclose
  rw [tied, hleft, List.head?_cons, Option.map_some, Option.getD_some, List.takeWhile_cons,
    if_pos (decide_eq_true hself), List.map_cons, List.head?_cons]

/-- A signature that is left to a contender in the end is not spent. -/
lemma Fair.not_spent {m : Mapping} (hc : c.Fair table) (hm : m.verdicts = c.finish config)
    (hx : x ∈ c.pending) {s : Scored} (hs : s ∈ x.ranking)
    (hfree : s.signature.unique = true → s.index ∉ c.taken) : ¬ m.Spent x.opcode s.signature := by
  rintro ⟨hunique, o, v, -, hv, hsubject⟩
  rw [Mapping.get?, hm] at hv
  have hcases : c.verdicts.get? o = some v ∨ v.subject? = none :=
    Ledger.get?_foldl_cases (P := fun v => v.subject? = none)
      (fun l y _ v hv => get?_insert_of_no_subject rfl hv) hv
  rcases hcases with hold | hnone
  · exact hfree hunique (hc.held hold (hc.ranked x hx s hs) hunique hsubject)
  · cases hnone.symm.trans hsubject

end Contest

/-! ### Reasons -/

/-- The reasons for a verdict on an opcode with a ranking, in a mapping to which a contest has led.
In each of them, all that stands above the signature that the verdict is about is spent. -/
inductive Justified (table : SignatureTable) (config : MappingConfig) (start : Contest)
    (m : Mapping) (o : UInt8) (r : Ranking) : Verdict → Prop where
  /-- The signature scores high enough; when it was assigned, in a round that the opcode led, the
  next one that was left was not too close. -/
  | resolved {best : Scored} {written : List (UInt8 × Verdict)} {d : Contest} {x : Contender}
      {rest : Ranking} (hbest : m.Leaves o r best) (hhigh : ¬ best.score < config.threshold)
      (hreached : start.Reached config written d)
      (hlead : (d.dismiss config).leader? config = some (x, best)) (hopcode : x.opcode = o)
      (haward : (o, .resolved best.candidate) ∈ (d.dismiss config).awards config x best)
      (hleft : r.available d.taken = best :: rest)
      (hclear : ∀ next ∈ rest.head?, ¬ best.score - next.score < config.tieMargin) :
      Justified table config start m o r (.resolved best.candidate)
  /-- The signature scores too low. -/
  | low {best : Scored} (hbest : m.Leaves o r best) (hlow : best.score < config.threshold) :
      Justified table config start m o r (.lowConfidence (some best.candidate))
  /-- All signatures are spent. -/
  | bare (hspent : ∀ s ∈ table.signatures, m.Spent o s) :
      Justified table config start m o r (.lowConfidence none)
  /-- Among the signatures that are not spent, the first one scores high enough, and the second one
  is too close to it. The first one is the first candidate. -/
  | ambiguous {above between below : Ranking} {best next : Scored} {candidates : List Candidate}
      (hr : r = above ++ best :: (between ++ next :: below))
      (habove : ∀ s ∈ above, m.Spent o s.signature)
      (hbetween : ∀ s ∈ between, m.Spent o s.signature)
      (hbest : ¬ m.Spent o best.signature) (hnext : ¬ m.Spent o next.signature)
      (hhigh : ¬ best.score < config.threshold)
      (hclose : best.score - next.score < config.tieMargin)
      (hfirst : candidates.head? = some best.candidate) :
      Justified table config start m o r (.ambiguous candidates)
  /-- Several opcodes fight over the signature. -/
  | conflict {best : Scored} {group : List UInt8} (hbest : m.Leaves o r best) :
      Justified table config start m o r (.conflict best.signature.mnemonic group)

namespace Contest

section Reasons

variable {table : SignatureTable} {config : MappingConfig} {c d : Contest} {m : Mapping}
  {written : List (UInt8 × Verdict)} {e : UInt8 × Verdict} (hreached : Reached config c written d)
  (h : Explained table c written d) (hc : c.opcodes.Nodup)
  (hm : ∀ e ∈ written, m.get? e.1 = some e.2)
  (hranked : ∀ x ∈ c.pending, ∃ scorer f, x.ranking = Ranking.ofFeatures table scorer f)

include hreached h hc hm hranked in
/-- The verdicts that are written when contenders are dismissed are justified: a ranking holds all
signatures. -/
lemma justified_of_mem_dismissals (he : e ∈ d.dismissals config) :
    ∃ x ∈ c.pending, x.opcode = e.1 ∧ Justified table config c m e.1 x.ranking e.2 := by
  obtain ⟨x, hx, best, hstands, rfl⟩ := of_mem_dismissals he
  refine ⟨x, hreached.pending_subset hx, rfl, ?_⟩
  generalize hleft : x.ranking.available d.taken = left at hstands
  cases hstands with
  | low hlow => exact .low (h.leaves hc hm hx hleft) hlow
  | bare =>
      refine .bare fun s hs => ?_
      obtain ⟨scorer, f, hranking⟩ := hranked x (hreached.pending_subset hx)
      obtain ⟨i, hi⟩ := List.mem_iff_getElem?.mp hs
      obtain ⟨t, ht, -, rfl⟩ := Ranking.exists_mem_ofFeatures scorer f hi
      rw [← hranking] at ht
      exact h.spent hc hm hx ht (Ranking.of_available_eq_nil hleft t ht)

include hreached h hc hm in
/-- The verdicts that are written when somebody leads are justified. -/
lemma justified_of_mem_awards {x : Contender} {best : Scored}
    (hlead : (d.dismiss config).leader? config = some (x, best))
    (he : e ∈ (d.dismiss config).awards config x best) :
    ∃ y ∈ c.pending, y.opcode = e.1 ∧ Justified table config c m e.1 y.ranking e.2 := by
  obtain ⟨hx, hready⟩ := leader?_spec hlead
  have hpending {y : Contender} (hy : y ∈ (d.dismiss config).pending) : y ∈ d.pending :=
    (List.mem_filter.mp hy).1
  rcases of_mem_awards h.fair.dismiss hlead he with rfl | ⟨y, hy, s, rest, group, hleft, hs, rfl⟩
  · refine ⟨x, hreached.pending_subset (hpending hx), rfl, ?_⟩
    have hstands : Stands config (x.ranking.available d.taken) (.ready best) :=
      standing_eq_iff.mp hready
    generalize hleft : x.ranking.available d.taken = left at hstands
    cases hstands with
    | clear hhigh hclear =>
        have hbest := h.leaves hc hm (hpending hx) hleft
        exact .resolved hbest hhigh hreached hlead rfl he hleft hclear
  · refine ⟨y, hreached.pending_subset (hpending hy), rfl, ?_⟩
    rw [← hs]
    exact .conflict (h.leaves hc hm (hpending hy) hleft)

include hreached h hc hm hranked in
/-- The verdicts on what is pending in the end are justified. -/
lemma justified_of_mem_leftovers (hnone : (d.dismiss config).leader? config = none)
    (hfinal : m.verdicts = (d.dismiss config).finish config)
    (he : e ∈ (d.dismiss config).leftovers config) :
    ∃ x ∈ c.pending, x.opcode = e.1 ∧ Justified table config c m e.1 x.ranking e.2 := by
  obtain ⟨x, hx, rfl⟩ := List.mem_map.mp he
  obtain ⟨hpending, -⟩ := List.mem_filter.mp hx
  obtain ⟨best, next, rest, hleft, hhigh, hclose⟩ := waits_of_leader? hnone hx
  refine ⟨x, hreached.pending_subset hpending, rfl, ?_⟩
  obtain ⟨above, below, hr, hbelow, hbest, habove⟩ := Ranking.of_available_eq_cons hleft
  obtain ⟨between, below', rfl, -, hnext, hbetween⟩ := Ranking.of_available_eq_cons hbelow
  have hmem (s : Scored) (hs : s ∈ above ++ best :: (between ++ next :: below')) : s ∈ x.ranking :=
    hr ▸ hs
  have hspent (s : Scored) (hs : s ∈ x.ranking) := h.spent hc hm hpending hs
  have hfree (s : Scored) (hs : s ∈ x.ranking) := h.fair.dismiss.not_spent hfinal hx hs
  have hfirst : (tied config d.taken x.ranking).head? = some best.candidate := by
    obtain ⟨scorer, f, hranking⟩ := hranked x (hreached.pending_subset hpending)
    rw [hranking] at hleft ⊢
    exact head?_tied hleft hclose
  exact .ambiguous hr (fun s hs => hspent s (hmem s (by simp [hs])) (habove s hs))
    (fun s hs => hspent s (hmem s (by simp [hs])) (hbetween s hs))
    (hfree best (hmem best (by simp)) hbest) (hfree next (hmem next (by simp)) hnext) hhigh hclose
    hfirst

end Reasons

end Contest

namespace Resolver

variable {r : Resolver} {profiles : ProfileSet} {known : List UInt8}

/-- The contenders are the opcodes with enough evidence, with their rankings. -/
lemma exists_evidence_of_mem_pending {x : Contender} (hx : x ∈ (r.start profiles known).pending) :
    ∃ p, r.evidence? profiles x.opcode = some p
      ∧ x.ranking = Ranking.ofFeatures r.signatures r.scorer (Features.ofProfile profiles p) := by
  obtain ⟨o, -, ho⟩ := List.mem_filterMap.mp hx
  obtain ⟨p, hp, rfl⟩ := Option.map_eq_some_iff.mp ho
  exact ⟨p, hp, rfl⟩

/-- A verdict on an opcode with enough evidence is justified, for a contender of that opcode. -/
lemma exists_justified (hdistinct : (r.signatures.signatures.map (·.mnemonic)).Nodup) {o : UInt8}
    {p : Profile} (hp : r.evidence? profiles o = some p) {v : Verdict}
    (hv : (r.resolve profiles known).mapping.get? o = some v) :
    ∃ x ∈ (r.start profiles known).pending, x.opcode = o
      ∧ Justified r.signatures r.config (r.start profiles known)
        (r.resolve profiles known).mapping o x.ranking v := by
  obtain ⟨n, written, hcourse⟩ := Contest.exists_course r.config (r.start profiles known)
  have hexplained {ws : List (UInt8 × Verdict)} {d : Contest}
      (hreached : (r.start profiles known).Reached r.config ws d) :
      Contest.Explained r.signatures (r.start profiles known) ws d :=
    hreached.explained (fair_start r profiles known) hdistinct rfl
  have hranked (x : Contender) (hx : x ∈ (r.start profiles known).pending) :
      ∃ scorer f, x.ranking = Ranking.ofFeatures r.signatures scorer f := by
    obtain ⟨q, -, hranking⟩ := exists_evidence_of_mem_pending hx
    exact ⟨_, _, hranking⟩
  -- what was written by some round is in the mapping
  have hget {ws : List (UInt8 × Verdict)} (hsub : ws ⊆ written) :
      ∀ e ∈ ws, (r.resolve profiles known).mapping.get? e.1 = some e.2 := fun e he =>
    (get?_resolve_iff hcourse).mpr (List.mem_append_left _ (List.mem_append_right _ (hsub he)))
  have hmem := (get?_resolve_iff hcourse).mp hv
  rw [journal, List.mem_append, List.mem_append] at hmem
  rcases hmem with (hmem | hmem) | hmem
  · obtain ⟨o', -, hopening⟩ := List.mem_filterMap.mp hmem
    obtain ⟨hnone, heq⟩ := opening?_eq_some_iff.mp hopening
    obtain ⟨rfl, -⟩ := Prod.mk.inj heq
    cases hnone.symm.trans hp
  · obtain ⟨ws, d, hreached, hsub, hcase⟩ := hcourse.source .start hmem
    rcases hcase with hmem | ⟨x, best, hlead, hmem⟩
    · exact Contest.justified_of_mem_dismissals hreached (hexplained hreached) nodup_start
        (hget hsub) hranked hmem
    · exact Contest.justified_of_mem_awards hreached (hexplained hreached) nodup_start (hget hsub)
        hlead hmem
  · obtain ⟨ws, d, hreached, hwritten, hnone, hend⟩ := hcourse.ended .start
    have hsub : ws ⊆ written := by
      rw [← List.nil_append written, hwritten]
      exact List.subset_append_left _ _
    refine Contest.justified_of_mem_leftovers hreached (hexplained hreached) nodup_start (hget hsub)
      hranked hnone ?_ (hend ▸ hmem)
    rw [← hend]
    rfl

/-- **Every verdict is justified.** An opcode with enough evidence has a ranking: all signatures
with their scores, highest first, equal scores in the order of the table. If the mnemonics of the
table are distinct, whatever verdict the opcode gets has its reason in the mapping as a whole. -/
theorem resolve_justified (r : Resolver) (profiles : ProfileSet) (known : List UInt8)
    (hdistinct : (r.signatures.signatures.map (·.mnemonic)).Nodup) {o : UInt8} {p : Profile}
    (hp : r.evidence? profiles o = some p) :
    let ranking := Ranking.ofFeatures r.signatures r.scorer (Features.ofProfile profiles p)
    ranking.Perm (Ranking.scores r.signatures r.scorer (Features.ofProfile profiles p))
    ∧ (ranking.Pairwise fun s t => s.before t = true)
    ∧ ∀ v, (r.resolve profiles known).mapping.get? o = some v →
      Justified r.signatures r.config (r.start profiles known) (r.resolve profiles known).mapping o
        ranking v := by
  intro ranking
  refine ⟨Ranking.perm_ofFeatures _ _ _, Ranking.pairwise_ofFeatures _ _ _, fun v hv => ?_⟩
  obtain ⟨x, hx, rfl, hjustified⟩ := exists_justified hdistinct hp hv
  obtain ⟨q, hq, hranking⟩ := exists_evidence_of_mem_pending hx
  obtain rfl := Option.some.inj (hq.symm.trans hp)
  rwa [hranking] at hjustified

/-- Two signatures: all opcodes fit the first one better, and one of them most of all. -/
def sampleRunnerUp : Resolver where
  signatures := ⟨1, [SignatureTable.plain "pop" .none 1 0, SignatureTable.plain "dup" .none 1 2]⟩
  scorer f s :=
    if f.opcode = 1 then if s.mnemonic = "pop" then 1.0 else 0.5
    else if s.mnemonic = "pop" then 0.95 else 0.9
  config := .default

lemma ranking_sampleRunnerUp (f : Features) :
    Ranking.ofFeatures sampleRunnerUp.signatures sampleRunnerUp.scorer f
      = Ranking.scores sampleRunnerUp.signatures sampleRunnerUp.scorer f := by
  refine Ranking.ofFeatures_eq_scores ?_
  have hscorer : sampleRunnerUp.scorer f = fun s =>
      if f.opcode = 1 then if s.mnemonic = "pop" then 1.0 else 0.5
      else if s.mnemonic = "pop" then 0.95 else 0.9 := rfl
  rw [Ranking.scores, hscorer]
  by_cases hopcode : f.opcode = 1
  · simp only [if_pos hopcode]
    decide +kernel
  · simp only [if_neg hopcode]
    decide +kernel

/-- The second opcode gets the second signature, since the first one is spent. -/
theorem resolve_justified_runnerUp :
    (sampleRunnerUp.signatures.signatures.map (·.mnemonic)).Nodup
      ∧ (sampleRunnerUp.resolve sampleProfiles []).mapping.get? 2 = some (.resolved ⟨"dup", 0.9⟩)
      ∧ Justified sampleRunnerUp.signatures .default (sampleRunnerUp.start sampleProfiles [])
        (sampleRunnerUp.resolve sampleProfiles []).mapping 2
        (Ranking.ofFeatures sampleRunnerUp.signatures sampleRunnerUp.scorer
          (Features.ofProfile sampleProfiles { opcode := 2, occurrences := 1 }))
        (.resolved ⟨"dup", 0.9⟩) := by
  have hdistinct : (sampleRunnerUp.signatures.signatures.map (·.mnemonic)).Nodup := by decide
  have hevidence : sampleRunnerUp.evidence? sampleProfiles 2
      = some { opcode := 2, occurrences := 1 } := by decide
  have hresolved : (sampleRunnerUp.resolve sampleProfiles []).mapping.get? 2
      = some (.resolved ⟨"dup", 0.9⟩) := by
    rw [resolve, start]
    simp only [ranking_sampleRunnerUp]
    with_unfolding_all rfl
  exact ⟨hdistinct, hresolved,
    (resolve_justified sampleRunnerUp sampleProfiles [] hdistinct hevidence).2.2 _ hresolved⟩

end Resolver

end OpcodeRecovery
