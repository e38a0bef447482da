import Mathlib
import OpcodeRecovery.Proofs.Opcode.Doubles
import OpcodeRecovery.Proofs.Opcode.Standing

/-!
The order of a ranking, which leaves no choice.

`Ranking.Ranks` says what a ranking is without any sorting: every place of the table is in it once,
with the signature that stands there and with what its score counts as (`Score.Rated`), and of two
signatures the one in front outranks the other (`Scored.Outranks`).

* `Scored.outranks_iff`: between numbers, to outrank is to have the higher place in the order of all
  doubles, or the same one and an earlier place in the table. So no two signatures outrank each other.
* `Ranking.Ranks.eq`: a table, a scorer and features have one ranking only.
* `Ranking.available_eq_iff`: what is left of a ranking is its one sublist that has the members which
  may still be chosen.
* `Ranking.unique_ranking`: both, for every scorer.
-/

namespace OpcodeRecovery

/-- A signature outranks another one by a higher score, or by an earlier place at the same score. -/
def Scored.Outranks (s t : Scored) : Prop :=
  Score.Below t.score s.score ∨ s.score = t.score ∧ s.index < t.index

lemma Scored.outranks_iff {s t : Scored} (hs : s.score.isNaN = false) (ht : t.score.isNaN = false) :
    s.Outranks t ↔ Score.orderKey t.score < Score.orderKey s.score
      ∨ Score.orderKey s.score = Score.orderKey t.score ∧ s.index < t.index := by
  rw [Outranks, Score.orderKey_lt_iff ht hs, Score.orderKey_inj]

namespace Ranking

/-- A list of signatures ranks a table: each place once, with what stands there, in order. -/
structure Ranks (table : SignatureTable) (scorer : Scorer) (f : Features) (r : Ranking) : Prop where
  places : (r.map (·.index)).Perm (List.range table.signatures.length)
  signed : ∀ s ∈ r, table.signatures[s.index]? = some s.signature
  rated : ∀ s ∈ r, Score.Rated (scorer f s.signature) s.score
  descending : r.Pairwise Scored.Outranks

variable {table : SignatureTable} {scorer : Scorer} {f : Features} {r r' : Ranking}

/-! ### One ranking -/

lemma rated_of_mem_ofFeatures {s : Scored} (h : s ∈ ofFeatures table scorer f) :
    Score.Rated (scorer f s.signature) s.score :=
  Score.rated_iff.mpr (mem_ofFeatures_iff.mp h).2

lemma ranks_ofFeatures (table : SignatureTable) (scorer : Scorer) (f : Features) :
    Ranks table scorer f (ofFeatures table scorer f) where
  places := perm_index table scorer f
  signed s hs := (mem_ofFeatures_iff.mp hs).1
  rated s hs := rated_of_mem_ofFeatures hs
  descending := by
    have hplaces := List.pairwise_map.mp (nodup_index table scorer f)
    refine ((pairwise_ofFeatures table scorer f).and hplaces).imp_of_mem ?_
    rintro s t hs ht ⟨hbefore, hplace⟩
    rw [Scored.before_iff] at hbefore
    rw [Scored.outranks_iff (rated_of_mem_ofFeatures hs).isNaN_eq_false
      (rated_of_mem_ofFeatures ht).isNaN_eq_false]
    omega

namespace Ranks

lemma nodup (h : Ranks table scorer f r) : r.Nodup :=
  (h.places.nodup_iff.mpr List.nodup_range).of_map

/-- The members of a ranking do not depend on their order. -/
lemma mem_iff (h : Ranks table scorer f r) {s : Scored} :
    s ∈ r ↔ table.signatures[s.index]? = some s.signature
      ∧ s.score = Score.normalize (scorer f s.signature) := by
  refine ⟨fun hs => ⟨h.signed s hs, Score.rated_iff.mp (h.rated s hs)⟩, ?_⟩
  rintro ⟨hsigned, hscore⟩
  -- some signature is ranked for the place of `s`, and the place decides about the rest of it
  have hplace : s.index ∈ r.map (·.index) := by
    rw [h.places.mem_iff, List.mem_range]
    exact (List.getElem?_eq_some_iff.mp hsigned).1
  obtain ⟨t, ht, hindex⟩ := List.mem_map.mp hplace
  have hsignature : t.signature = s.signature := by
    have htable := h.signed t ht
    rw [hindex, hsigned] at htable
    exact (Option.some.inj htable).symm
  have htscore := Score.rated_iff.mp (h.rated t ht)
  rw [hsignature, ← hscore] at htscore
  obtain ⟨i, signature, score⟩ := s
  obtain ⟨j, signature', score'⟩ := t
  dsimp only at hindex hsignature htscore
  rwa [hindex, hsignature, htscore] at ht

/-- There is one ranking only. -/
lemma eq (h : Ranks table scorer f r) (h' : Ranks table scorer f r') : r = r' := by
  have hperm : r.Perm r' :=
    (List.perm_ext_iff_of_nodup h.nodup h'.nodup).mpr fun s => by rw [h.mem_iff, h'.mem_iff]
  refine hperm.eq_of_pairwise (fun s t hs ht hst hts => ?_) h.descending h'.descending
  have hsnumber := (h.rated s hs).isNaN_eq_false
  have htnumber := (h'.rated t ht).isNaN_eq_false
  rw [Scored.outranks_iff hsnumber htnumber] at hst
  rw [Scored.outranks_iff htnumber hsnumber] at hts
  omega

end Ranks

/-! ### What is left of a ranking -/

/-- Of a list without repetitions, one sublist has the members with a given property. -/
lemma eq_filter_iff {α : Type} {l m : List α} (hm : m.Nodup) {p : α → Bool} :
    l = m.filter p ↔ l.Sublist m ∧ ∀ a, a ∈ l ↔ a ∈ m ∧ p a = true := by
  constructor
  · rintro rfl
    exact ⟨List.filter_sublist, fun a => List.mem_filter⟩
  · rintro ⟨hsub, hmem⟩
    have hall : l.filter p = l := List.filter_eq_self.mpr fun a ha => ((hmem a).mp ha).2
    have hperm : l.Perm (m.filter p) :=
      (List.perm_ext_iff_of_nodup (hm.sublist hsub) (hm.filter p)).mpr fun a => by
        rw [hmem, List.mem_filter]
    rw [← hall]
    exact (hsub.filter p).eq_of_length (by rw [hall, hperm.length_eq])

lemma available_eq_iff {taken : List ℕ} {left : Ranking} (hr : r.Nodup) :
    left = r.available taken ↔ left.Sublist r
      ∧ ∀ s, s ∈ left ↔ s ∈ r ∧ (s.index ∉ taken ∨ s.signature.unique = false) := by
  rw [available, eq_filter_iff hr]
  simp only [Bool.or_eq_true, Bool.not_eq_true', List.contains_eq_mem, decide_eq_false_iff_not]

/-- Whatever the scorer says, the signatures of a table are ranked in one way: each place once, with
zero for a score that is no number and the nearest value between zero and one for any other, by
descending scores, and by places where scores are the same. Whatever is taken, the signatures that are
free or not unique are left, in the same order. -/
theorem unique_ranking (table : SignatureTable) (scorer : Scorer) (f : Features) :
    (∀ r, Ranks table scorer f r ↔ r = ofFeatures table scorer f)
    ∧ ∀ (taken : List ℕ) (left : Ranking),
        left = (ofFeatures table scorer f).available taken
          ↔ left.Sublist (ofFeatures table scorer f)
            ∧ ∀ s, s ∈ left ↔ s ∈ ofFeatures table scorer f
              ∧ (s.index ∉ taken ∨ s.signature.unique = false) := by
  have hranks := ranks_ofFeatures table scorer f
  refine ⟨fun r => ⟨fun h => h.eq hranks, ?_⟩, fun taken left => available_eq_iff hranks.nodup⟩
  rintro rfl
  exact hranks

end Ranking

end OpcodeRecovery
