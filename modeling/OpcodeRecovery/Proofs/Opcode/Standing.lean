import Mathlib.Tactic
import OpcodeRecovery.Opcode.Resolve

/-!
Rankings and the standings they give.

* A ranking holds every signature of its table once, in descending order of the scores, equal scores
  in the order of the table (`Ranking.perm_ofFeatures`, `Ranking.pairwise_ofFeatures`).
* `Stands` is how a contender stands against the signatures that are left to it, case by case, and
  `standing_eq_iff` says that this is what is found out in a round.
* Where nobody leads, nobody is ready (`Contest.not_ready_of_leader?`).
-/

namespace OpcodeRecovery

/-! ### The order of a ranking -/

/-- A signature stands before another one by its score first and by its place then. -/
lemma Scored.before_iff {s t : Scored} :
    s.before t = true ↔ Score.orderKey t.score < Score.orderKey s.score
      ∨ (Score.orderKey s.score = Score.orderKey t.score ∧ s.index ≤ t.index) := by
  simp only [before, Bool.or_eq_true, Bool.and_eq_true, decide_eq_true_eq, beq_iff_eq]

namespace Ranking

variable {table : SignatureTable} {scorer : Scorer} {f : Features}

/-- A ranking is made of all signatures, with their scores. -/
lemma perm_ofFeatures (table : SignatureTable) (scorer : Scorer) (f : Features) :
    (ofFeatures table scorer f).Perm (scores table scorer f) :=
  List.mergeSort_perm _ _

/-- A ranking is in order. -/
lemma pairwise_ofFeatures (table : SignatureTable) (scorer : Scorer) (f : Features) :
    (ofFeatures table scorer f).Pairwise fun s t => s.before t = true := by
  refine List.pairwise_mergeSort (fun s t u hst htu => ?_) (fun s t => ?_) _
  · rw [Scored.before_iff] at hst htu ⊢
    omega
  · rw [Bool.or_eq_true, Scored.before_iff, Scored.before_iff]
    omega

/-- Signatures that are in order are ranked as they stand. -/
lemma ofFeatures_eq_scores (h : (scores table scorer f).Pairwise fun s t => s.before t = true) :
    ofFeatures table scorer f = scores table scorer f :=
  List.mergeSort_of_pairwise h

/-- The members of a ranking are the signatures at their places. -/
lemma mem_ofFeatures_iff {s : Scored} :
    s ∈ ofFeatures table scorer f
      ↔ table.signatures[s.index]? = some s.signature
        ∧ s.score = Score.normalize (scorer f s.signature) := by
  rw [(perm_ofFeatures table scorer f).mem_iff, scores, List.mem_map]
  constructor
  · rintro ⟨⟨signature, i⟩, hmem, rfl⟩
    exact ⟨List.mem_zipIdx_iff_getElem?.mp hmem, rfl⟩
  · rintro ⟨hs, hscore⟩
    obtain ⟨i, signature, score⟩ := s
    dsimp only at hscore
    subst hscore
    exact ⟨(signature, i), List.mem_zipIdx_iff_getElem?.mpr hs, rfl⟩

/-- The places of a ranking are those of the table. -/
lemma perm_index (table : SignatureTable) (scorer : Scorer) (f : Features) :
    ((ofFeatures table scorer f).map (·.index)).Perm (List.range table.signatures.length) := by
  have hindex : (scores table scorer f).map (·.index) = List.range table.signatures.length := by
    rw [scores, List.map_map, List.range_eq_range', ← List.zipIdx_map_snd]
    rfl
  rw [← hindex]
  exact (perm_ofFeatures table scorer f).map _

/-- No place of the table is ranked twice. -/
lemma nodup_index (table : SignatureTable) (scorer : Scorer) (f : Features) :
    ((ofFeatures table scorer f).map (·.index)).Nodup :=
  (perm_index table scorer f).nodup_iff.mpr List.nodup_range

/-- Every signature of the table is in a ranking. -/
lemma exists_mem_ofFeatures (scorer : Scorer) (f : Features) {i : ℕ} {s : Signature}
    (hs : table.signatures[i]? = some s) :
    ∃ t ∈ ofFeatures table scorer f, t.index = i ∧ t.signature = s :=
  ⟨⟨i, s, Score.normalize (scorer f s)⟩, mem_ofFeatures_iff.mpr ⟨hs, rfl⟩, rfl, rfl⟩

/-- What is not left of a ranking: unique signatures that are taken. -/
lemma of_available_eq_nil {taken : List ℕ} {r : Ranking} (h : r.available taken = []) :
    ∀ s ∈ r, s.signature.unique = true ∧ s.index ∈ taken := by
  intro s hs
  simpa [and_comm] using List.filter_eq_nil_iff.mp h s hs

/-- The first signature that is left, as it stands in the whole ranking: what stands above it is
unique and taken. -/
lemma of_available_eq_cons {taken : List ℕ} {r rest : Ranking} {best : Scored}
    (h : r.available taken = best :: rest) :
    ∃ above below : Ranking, r = above ++ best :: below ∧ below.available taken = rest
      ∧ (best.signature.unique = true → best.index ∉ taken)
      ∧ ∀ s ∈ above, s.signature.unique = true ∧ s.index ∈ taken := by
  obtain ⟨above, below, rfl, habove, hbest, hbelow⟩ := List.filter_eq_cons_iff.mp h
  refine ⟨above, below, rfl, hbelow, fun hunique => ?_, fun s hs => ?_⟩
  · simpa [hunique] using hbest
  · simpa [and_comm] using habove s hs

end Ranking

/-! ### Standings -/

/-- How a contender stands against the signatures that are left to it: there are none, or the best
one scores too low, or the next one is too close to it, or none of these. -/
inductive Stands (config : MappingConfig) : Ranking → Standing → Prop where
  | bare : Stands config [] (.dismissed none)
  | low {best : Scored} {rest : Ranking} (hlow : best.score < config.threshold) :
      Stands config (best :: rest) (.dismissed (some best))
  | close {best next : Scored} {rest : Ranking} (hhigh : ¬ best.score < config.threshold)
      (hclose : best.score - next.score < config.tieMargin) :
      Stands config (best :: next :: rest) .waiting
  | clear {best : Scored} {rest : Ranking} (hhigh : ¬ best.score < config.threshold)
      (hclear : ∀ next ∈ rest.head?, ¬ best.score - next.score < config.tieMargin) :
      Stands config (best :: rest) (.ready best)

lemma standing_eq_iff {config : MappingConfig} {taken : List ℕ} {r : Ranking} {st : Standing} :
    Standing.of config taken r = st ↔ Stands config (r.available taken) st := by
  rw [Standing.of]
  generalize r.available taken = left
  constructor
  · rintro rfl
    cases left with
    | nil => exact .bare
    | cons best others =>
        dsimp only
        split_ifs with hlow
        · exact .low hlow
        · cases others with
          | nil => exact .clear hlow (by simp)
          | cons next rest =>
              dsimp only
              split_ifs with hclose
              · exact .close hlow hclose
              · exact .clear hlow (by simpa using hclose)
  · intro h
    cases h with
    | bare => rfl
    | low hlow => exact if_pos hlow
    | close hhigh hclose =>
        dsimp only
        rw [if_neg hhigh, if_pos hclose]
    | @clear best rest hhigh hclear =>
        dsimp only
        rw [if_neg hhigh]
        cases rest with
        | nil => rfl
        | cons next rest => exact if_neg (hclear next rfl)

namespace Contest

variable {config : MappingConfig} {c : Contest}

/-- Where nobody leads, nobody is ready. -/
lemma not_ready_of_leader? (h : c.leader? config = none) {x : Contender} (hx : x ∈ c.pending)
    (best : Scored) : c.standing config x ≠ .ready best := by
  -- whoever leads is followed by a leader
  have hstep (leader : Option (Contender × Scored)) (y : Contender)
      (hnone : c.lead config leader y = none) :
      leader = none ∧ c.standing config y ≠ .ready best := by
    rw [lead] at hnone
    cases hy : c.standing config y with
    | ready s =>
        rw [hy] at hnone
        dsimp only at hnone
        split at hnone
        · split_ifs at hnone
        · cases hnone
    | dismissed s =>
        rw [hy] at hnone
        exact ⟨hnone, by simp⟩
    | waiting =>
        rw [hy] at hnone
        exact ⟨hnone, by simp⟩
  have hfold : ∀ (ys : List Contender) (leader : Option (Contender × Scored)),
      ys.foldl (c.lead config) leader = none →
        leader = none ∧ ∀ y ∈ ys, c.standing config y ≠ .ready best := by
    intro ys
    induction ys with
    | nil => exact fun leader h => ⟨h, by simp⟩
    | cons y ys ih =>
        intro leader h
        obtain ⟨hlead, hys⟩ := ih _ h
        obtain ⟨hleader, hy⟩ := hstep leader y hlead
        exact ⟨hleader, List.forall_mem_cons.mpr ⟨hy, hys⟩⟩
  exact (hfold c.pending none h).2 x hx

end Contest

end OpcodeRecovery
