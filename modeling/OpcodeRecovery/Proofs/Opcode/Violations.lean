import Mathlib.Tactic
import OpcodeRecovery.Proofs.Opcode.Justification

/-!
When the resolver and the check of its mappings agree.

The resolver keeps unique signatures apart by their places in the table, and the check looks for
mnemonics that several opcodes are resolved to, and at the first signature of such a mnemonic.

* `Mapping.violations_eq_nil_iff` says what the check finds in any mapping.
* `SignatureTable.Repeats` is a mnemonic whose first signature is unique and not the only one.
* A mnemonic that is not repeated is named once (`Contest.Course.named_once`). One that is repeated
  can be named twice: where two opcodes fit it and nothing else, one takes the first signature and
  the other one the second (`Resolver.twins`).
* So the check finds nothing in the mappings of a table exactly if no mnemonic is repeated
  (`Resolver.violations_resolve_eq_nil_iff`).
-/

namespace OpcodeRecovery

/-- A list without repetitions has one member at most exactly if its members are all the same. -/
lemma length_le_one_iff_of_nodup {α : Type} {as : List α} (h : as.Nodup) :
    as.length ≤ 1 ↔ ∀ a ∈ as, ∀ b ∈ as, a = b := by
  constructor
  · intro hlength a ha b hb
    obtain ⟨c, rfl⟩ := List.length_eq_one_iff.mp
      (Nat.le_antisymm hlength (List.length_pos_of_mem ha))
    rw [List.mem_singleton.mp ha, List.mem_singleton.mp hb]
  · intro hsame
    by_contra hlength
    obtain ⟨a, b, rest, rfl⟩ : ∃ a b rest, as = a :: b :: rest := by
      match as with
      | a :: b :: rest => exact ⟨a, b, rest, rfl⟩
      | [] | [a] => simp at hlength
    have heq := hsame a (by simp) b (by simp)
    simp [heq] at h

/-! ### The check -/

namespace Mapping

variable {m : Mapping} {table : SignatureTable} {name : String} {o : UInt8}

/-- An opcode stands for a mnemonic. -/
def Names (m : Mapping) (o : UInt8) (name : String) : Prop :=
  ∃ v, m.get? o = some v ∧ v.mnemonic? = some name

lemma mem_resolved_iff : (o, name) ∈ m.resolved ↔ m.Names o name := by
  rw [resolved, List.mem_filterMap]
  constructor
  · rintro ⟨⟨o', v⟩, hmem, hv⟩
    obtain ⟨name', hname, heq⟩ := Option.map_eq_some_iff.mp hv
    obtain ⟨rfl, rfl⟩ := Prod.mk.inj heq
    exact ⟨v, Ledger.mem_entries_iff.mp hmem, hname⟩
  · rintro ⟨v, hv, hname⟩
    refine ⟨(o, v), Ledger.mem_entries_iff.mpr hv, ?_⟩
    rw [hname]
    rfl

lemma mem_opcodesFor_iff : o ∈ m.opcodesFor name ↔ m.Names o name := by
  rw [opcodesFor, List.mem_filterMap, ← mem_resolved_iff]
  constructor
  · rintro ⟨⟨o', name'⟩, hmem, heq⟩
    dsimp only at heq
    split_ifs at heq with hname
    obtain rfl := Option.some.inj heq
    rwa [← hname]
  · intro hmem
    exact ⟨(o, name), hmem, if_pos rfl⟩

lemma nodup_opcodesFor (m : Mapping) (name : String) : (m.opcodesFor name).Nodup := by
  have hentries : m.verdicts.entries.Pairwise fun d e => d.1 ≠ e.1 :=
    List.pairwise_map.mp (m.verdicts.pairwise_keys.imp fun hlt heq => by simp [heq] at hlt)
  have hresolved : m.resolved.Pairwise fun d e => d.1 ≠ e.1 := by
    refine hentries.filterMap _ fun d e hne a ha b hb => ?_
    obtain ⟨-, -, rfl⟩ := Option.map_eq_some_iff.mp ha
    obtain ⟨-, -, rfl⟩ := Option.map_eq_some_iff.mp hb
    exact hne
  refine hresolved.filterMap _ fun d e hne a ha b hb => ?_
  split_ifs at ha hb
  obtain rfl := Option.some.inj ha
  obtain rfl := Option.some.inj hb
  exact hne

lemma mem_mnemonics_iff : name ∈ m.mnemonics ↔ ∃ o, m.Names o name := by
  rw [mnemonics, List.mem_mergeSort, List.mem_eraseDups, List.mem_map]
  constructor
  · rintro ⟨⟨o, name'⟩, hmem, rfl⟩
    exact ⟨o, mem_resolved_iff.mp hmem⟩
  · rintro ⟨o, ho⟩
    exact ⟨(o, name), mem_resolved_iff.mpr ho, rfl⟩

/-- The check finds nothing exactly if no two opcodes stand for one mnemonic whose first signature
is unique. -/
lemma violations_eq_nil_iff :
    m.violations table = [] ↔ ∀ name, ((table.get? name).map (·.unique)).getD true = true →
      ∀ o₁ o₂, m.Names o₁ name → m.Names o₂ name → o₁ = o₂ := by
  have hlength (name : String) : (m.opcodesFor name).length ≤ 1
      ↔ ∀ o₁ o₂, m.Names o₁ name → m.Names o₂ name → o₁ = o₂ := by
    rw [length_le_one_iff_of_nodup (m.nodup_opcodesFor name)]
    simp only [mem_opcodesFor_iff]
    exact ⟨fun h o₁ o₂ h₁ h₂ => h o₁ h₁ o₂ h₂, fun h o₁ h₁ o₂ h₂ => h o₁ o₂ h₁ h₂⟩
  rw [violations, List.filter_eq_nil_iff]
  constructor
  · intro h name hunique o₁ o₂ h₁ h₂
    have hfew := h (name, m.opcodesFor name)
      (List.mem_map.mpr ⟨name, mem_mnemonics_iff.mpr ⟨o₁, h₁⟩, rfl⟩)
    refine (hlength name).mp ?_ o₁ o₂ h₁ h₂
    simpa [hunique] using hfew
  · intro h e he hviolated
    obtain ⟨name, -, rfl⟩ := List.mem_map.mp he
    obtain ⟨hmany, hunique⟩ := (Bool.and_eq_true _ _).mp hviolated
    have hfew := (hlength name).mpr (h name hunique)
    exact absurd (of_decide_eq_true hmany) (Nat.not_lt.mpr hfew)

end Mapping

/-! ### Repeated mnemonics -/

namespace SignatureTable

variable {table : SignatureTable} {name : String} {s : Signature}

/-- The first signature of the mnemonic is unique, but it is not the only one. -/
structure Repeats (table : SignatureTable) (name : String) : Prop where
  unique : ∃ s, table.get? name = some s ∧ s.unique = true
  again : 1 < table.signatures.countP (·.mnemonic == name)

/-- The place of the first signature of a mnemonic, and what it takes that there is another one. -/
lemma exists_place_of_get? (h : table.get? name = some s) :
    s.mnemonic = name ∧ ∃ i : ℕ, table.signatures[i]? = some s
      ∧ (∀ (j : ℕ) (t : Signature), table.signatures[j]? = some t → t.mnemonic = name → i ≤ j)
      ∧ (1 < table.signatures.countP (·.mnemonic == name)
        ↔ ∃ (j : ℕ) (t : Signature),
          j ≠ i ∧ table.signatures[j]? = some t ∧ t.mnemonic = name) := by
  obtain ⟨hname, before, after, hsplit, hbefore⟩ := List.find?_eq_some_iff_append.mp h
  have hname : s.mnemonic = name := eq_of_beq hname
  have hfirst (j : ℕ) (t : Signature) (ht : table.signatures[j]? = some t)
      (htname : t.mnemonic = name) : before.length ≤ j := by
    by_contra hlt
    rw [hsplit, List.getElem?_append_left (Nat.lt_of_not_le hlt)] at ht
    have hne := hbefore t (List.mem_of_getElem? ht)
    simp [htname] at hne
  refine ⟨hname, before.length, by simp [hsplit], hfirst, ?_⟩
  have hcount : table.signatures.countP (·.mnemonic == name)
      = after.countP (·.mnemonic == name) + 1 := by
    have hnone : before.countP (·.mnemonic == name) = 0 :=
      List.countP_eq_zero.mpr fun t ht => by simpa using hbefore t ht
    rw [hsplit, List.countP_append, hnone, Nat.zero_add, List.countP_cons_of_pos]
    exact beq_iff_eq.mpr hname
  rw [hcount, Nat.lt_add_left_iff_pos, List.countP_pos_iff]
  constructor
  · rintro ⟨t, ht, htname⟩
    obtain ⟨k, hk⟩ := List.mem_iff_getElem?.mp ht
    refine ⟨before.length + (k + 1), t, by omega, ?_, eq_of_beq htname⟩
    rw [hsplit, List.getElem?_append_right (Nat.le_add_right _ _), Nat.add_sub_cancel_left,
      List.getElem?_cons_succ, hk]
  · rintro ⟨j, t, hne, ht, htname⟩
    have hle := hfirst j t ht htname
    obtain ⟨k, rfl⟩ : ∃ k, j = before.length + (k + 1) := ⟨j - before.length - 1, by omega⟩
    rw [hsplit, List.getElem?_append_right (Nat.le_add_right _ _), Nat.add_sub_cancel_left,
      List.getElem?_cons_succ] at ht
    exact ⟨t, List.mem_of_getElem? ht, beq_iff_eq.mpr htname⟩

end SignatureTable

/-! ### A mnemonic that is not repeated is named once -/

namespace Contest

variable {table : SignatureTable} {config : MappingConfig} {c d : Contest} {x : Contender}
  {best : Scored} {written : List (UInt8 × Verdict)} {e : UInt8 × Verdict} {name : String}

/-- The rankings of the contenders are made of the signatures of a table. -/
def Ranked (table : SignatureTable) (c : Contest) : Prop :=
  ∀ x ∈ c.pending, ∀ s ∈ x.ranking, table.signatures[s.index]? = some s.signature

lemma mnemonic?_of_mem_dismissals (h : e ∈ c.dismissals config) : e.2.mnemonic? = none := by
  obtain ⟨x, -, best, -, rfl⟩ := of_mem_dismissals h
  rfl

/-- Where a mnemonic is named, the leader takes a signature that has it, and that was left. -/
lemma of_named_award (hc : c.Ranked table) (hlead : c.leader? config = some (x, best))
    (he : e ∈ c.awards config x best) (hname : e.2.mnemonic? = some name) :
    e = (x.opcode, .resolved best.candidate) ∧ best.signature.mnemonic = name
      ∧ table.signatures[best.index]? = some best.signature
      ∧ (best.signature.unique = true → best.index ∉ c.taken) := by
  obtain ⟨hx, hready⟩ := leader?_spec hlead
  obtain ⟨hbest, hfree⟩ := mem_available_iff.mp (mem_available_of_ready hready)
  rw [awards] at he
  split_ifs at he
  · obtain ⟨o, -, rfl⟩ := List.mem_map.mp he
    cases hname
  · obtain rfl := List.mem_singleton.mp he
    exact ⟨rfl, Option.some.inj hname, hc x hx best hbest, hfree⟩

lemma Reached.ranked_dismiss (h : Reached config c written d) (hc : c.Ranked table) :
    (d.dismiss config).Ranked table :=
  fun x hx => hc x (h.pending_subset (List.mem_filter.mp hx).1)

/-- A mnemonic that is named is one of the table. -/
lemma Course.listed {n : ℕ} (h : Course config c n written d) (hc : c.Ranked table)
    (he : e ∈ written) (hname : e.2.mnemonic? = some name) :
    ∃ s ∈ table.signatures, s.mnemonic = name := by
  obtain ⟨ws, b, hreached, -, hmem | ⟨x, best, hlead, hmem⟩⟩ := h.source .start he
  · cases (mnemonic?_of_mem_dismissals hmem).symm.trans hname
  · obtain ⟨-, hbest, hlisted, -⟩ := of_named_award (hreached.ranked_dismiss hc) hlead hmem hname
    exact ⟨best.signature, List.mem_of_getElem? hlisted, hbest⟩

/-- What every round keeps about the mnemonic of a signature: it is named once at most, and then the
signature is taken. -/
structure NamedOnce (i : ℕ) (name : String) (written : List (UInt8 × Verdict)) (d : Contest) :
    Prop where
  taken : ∀ e ∈ written, e.2.mnemonic? = some name → i ∈ d.taken
  once : ∀ e ∈ written, ∀ e' ∈ written, e.2.mnemonic? = some name →
    e'.2.mnemonic? = some name → e = e'

section Sole

variable {i : ℕ} {s : Signature} (hi : table.signatures[i]? = some s) (hunique : s.unique = true)
  (hsole : ∀ j t, table.signatures[j]? = some t → t.mnemonic = name → j = i)

include hi hunique hsole in
/-- One round, if there is no other signature with the mnemonic, and this one is unique. -/
lemma NamedOnce.round (h : NamedOnce i name written d) (hd : (d.dismiss config).Ranked table)
    (hlead : (d.dismiss config).leader? config = some (x, best)) :
    NamedOnce i name (written ++ (d.dismissals config ++ (d.dismiss config).awards config x best))
      ((d.dismiss config).assign config x best) := by
  -- whoever is resolved to the mnemonic now takes the signature, which was left
  have haward : ∀ e ∈ (d.dismiss config).awards config x best, e.2.mnemonic? = some name →
      e = (x.opcode, .resolved best.candidate) ∧ i ∉ d.taken
        ∧ i ∈ ((d.dismiss config).assign config x best).taken := by
    intro e he hname
    obtain ⟨heq, hbest, hlisted, hfree⟩ := of_named_award hd hlead he hname
    obtain rfl := hsole _ _ hlisted hbest
    obtain rfl := Option.some.inj (hlisted.symm.trans hi)
    refine ⟨heq, hfree hunique, ?_⟩
    rw [taken_assign, if_pos hunique]
    exact List.mem_cons_self
  have hcases : ∀ e ∈ written ++ (d.dismissals config ++ (d.dismiss config).awards config x best),
      e.2.mnemonic? = some name →
        e ∈ written ∨ e ∈ (d.dismiss config).awards config x best := by
    intro e he hname
    rcases List.mem_append.mp he with he | he
    · exact .inl he
    · rcases List.mem_append.mp he with he | he
      · cases (mnemonic?_of_mem_dismissals he).symm.trans hname
      · exact .inr he
  constructor
  · intro e he hname
    rcases hcases e he hname with he | he
    · have hold : i ∈ d.taken := h.taken e he hname
      rw [taken_assign]
      split_ifs
      · exact List.mem_cons_of_mem _ hold
      · exact hold
    · exact (haward e he hname).2.2
  · intro e he e' he' hname hname'
    rcases hcases e he hname with he | he <;> rcases hcases e' he' hname' with he' | he'
    · exact h.once e he e' he' hname hname'
    · exact absurd (h.taken e he hname) (haward e' he' hname').2.1
    · exact absurd (h.taken e' he' hname') (haward e he hname).2.1
    · rw [(haward e he hname).1, (haward e' he' hname').1]

include hi hunique hsole in
/-- The whole contest. -/
lemma Course.named_once {n : ℕ} (h : Course config c n written d) (hc : c.Ranked table) :
    ∀ e ∈ written, ∀ e' ∈ written, e.2.mnemonic? = some name → e'.2.mnemonic? = some name →
      e = e' := by
  obtain ⟨ws, b, hreached, hwritten, -, -⟩ := h.ended .start
  have hnamed : NamedOnce i name ws b := by
    clear hwritten
    induction hreached with
    | start => exact ⟨by simp, by simp⟩
    | round hreached hlead ih =>
        exact ih.round hi hunique hsole (hreached.ranked_dismiss hc) hlead
  have hcases : ∀ e ∈ written, e.2.mnemonic? = some name → e ∈ ws := by
    intro e he hname
    rw [← List.nil_append written, hwritten] at he
    rcases List.mem_append.mp he with he | he
    · exact he
    · cases (mnemonic?_of_mem_dismissals he).symm.trans hname
  intro e he e' he' hname hname'
  exact hnamed.once e (hcases e he hname) e' (hcases e' he' hname') hname hname'

end Sole

end Contest

namespace Resolver

variable {r : Resolver} {profiles : ProfileSet} {known : List UInt8} {name : String}

lemma ranked_start (r : Resolver) (profiles : ProfileSet) (known : List UInt8) :
    (r.start profiles known).Ranked r.signatures :=
  (fair_start r profiles known).ranked

/-- Where no mnemonic is repeated, the check finds nothing. -/
lemma violations_resolve_eq_nil (h : ∀ name, ¬ r.signatures.Repeats name) :
    (r.resolve profiles known).mapping.violations r.signatures = [] := by
  obtain ⟨n, written, hcourse⟩ := Contest.exists_course r.config (r.start profiles known)
  have hranked := ranked_start r profiles known
  -- only verdicts of the contest name an instruction
  have hwritten {o : UInt8} {v : Verdict} {name : String}
      (hv : (r.resolve profiles known).mapping.get? o = some v) (hname : v.mnemonic? = some name) :
      (o, v) ∈ written := by
    have hmem := (get?_resolve_iff hcourse).mp hv
    rw [journal, List.mem_append, List.mem_append] at hmem
    rcases hmem with (hmem | hmem) | hmem
    · obtain ⟨o', -, hopening⟩ := List.mem_filterMap.mp hmem
      obtain ⟨-, heq⟩ := opening?_eq_some_iff.mp hopening
      obtain ⟨-, rfl⟩ := Prod.mk.inj heq
      cases hname
    · exact hmem
    · obtain ⟨x, -, heq⟩ := List.mem_map.mp hmem
      obtain ⟨-, rfl⟩ := Prod.mk.inj heq
      cases hname
  refine Mapping.violations_eq_nil_iff.mpr ?_
  rintro name hunique o₁ o₂ ⟨v₁, hv₁, hname₁⟩ ⟨v₂, hv₂, hname₂⟩
  obtain ⟨t, ht, htname⟩ := hcourse.listed hranked (hwritten hv₁ hname₁) hname₁
  obtain ⟨s, hs⟩ : ∃ s, r.signatures.get? name = some s :=
    Option.isSome_iff_exists.mp (List.find?_isSome.mpr ⟨t, ht, beq_iff_eq.mpr htname⟩)
  have hsunique : s.unique = true := by simpa [hs] using hunique
  obtain ⟨-, i, hi, -, hagain⟩ := SignatureTable.exists_place_of_get? hs
  have hsole : ∀ j t, r.signatures.signatures[j]? = some t → t.mnemonic = name → j = i := by
    intro j t ht htname
    by_contra hne
    exact h name ⟨⟨s, hs, hsunique⟩, hagain.mpr ⟨j, t, hne, ht, htname⟩⟩
  have hsame := hcourse.named_once hi hsunique hsole hranked _ (hwritten hv₁ hname₁) _
    (hwritten hv₂ hname₂) hname₁ hname₂
  exact (Prod.mk.inj hsame).1

end Resolver

/-! ### A mnemonic that is repeated is named twice -/

namespace Contest

variable {config : MappingConfig} {c : Contest} {x : Contender} {best : Scored}

/-- Where everybody is ready, nobody is dismissed. -/
lemma dismiss_eq_self (h : ∀ x ∈ c.pending, ∃ best, c.standing config x = .ready best) :
    c.dismiss config = c := by
  have hstays : ∀ x ∈ c.pending, c.stays config x = true := by
    intro x hx
    obtain ⟨best, hbest⟩ := h x hx
    rw [stays, hbest]
  have hpending : (c.dismiss config).pending = c.pending := List.filter_eq_self.mpr hstays
  have hnone : c.dismissals config = [] :=
    List.filterMap_eq_nil_iff.mpr fun x hx =>
      Option.isNone_iff_eq_none.mp ((stays_eq x).symm.trans (hstays x hx))
  have hverdicts : (c.dismiss config).verdicts = c.verdicts := by
    rw [verdicts_dismiss, hnone]
    rfl
  calc c.dismiss config
      = { c with
          pending := (c.dismiss config).pending
          verdicts := (c.dismiss config).verdicts } := rfl
    _ = c := by rw [hpending, hverdicts]

/-- A round in which everybody is ready. -/
lemma run_of_ready (hready : ∀ x ∈ c.pending, ∃ best, c.standing config x = .ready best)
    (h : c.leader? config = some (x, best)) :
    c.run config = (c.assign config x best).run config := by
  have hself := dismiss_eq_self hready
  have hlead : (c.dismiss config).leader? config = some (x, best) := by rw [hself, h]
  rw [run_of_leader? hlead, hself]

/-- A contest without contenders is over. -/
lemma run_of_nobody (h : c.pending = []) : c.run config = c := by
  have hself : c.dismiss config = c := dismiss_eq_self (by simp [h])
  rw [run_of_leader?_none (by rw [hself, leader?, h]; rfl), hself]

/-- A leader without rivals gets its signature. -/
lemma assign_of_claimants (h : c.claimants config x best = [x.opcode]) :
    c.assign config x best
      = { c.conclude [x.opcode] (.resolved best.candidate) with
          taken := if best.signature.unique then best.index :: c.taken else c.taken } := by
  rw [assign]
  split_ifs
  · dsimp only
    rw [if_pos (by simp [h])]
    rfl
  · rfl

end Contest

namespace Resolver

variable {table : SignatureTable} {name : String} {f : Features}

/-- No demands: neither a score nor a lead is asked for. -/
def noDemands : MappingConfig := ⟨0.0, 0.0, 0, .default⟩

/-- Every opcode fits one mnemonic perfectly, and nothing else. -/
def twins (table : SignatureTable) (name : String) : Resolver where
  signatures := table
  scorer _ s := if s.mnemonic = name then 1.0 else 0.0
  config := noDemands

lemma stands_of_perfect {best : Scored} {rest : Ranking} (hbest : best.score = 1.0)
    (hrest : ∀ s ∈ rest, s.score = 1.0 ∨ s.score = 0.0) :
    Stands noDemands (best :: rest) (.ready best) := by
  refine .clear ?_ fun next hnext => ?_
  · rw [hbest]
    decide +kernel
  · rcases hrest next (List.mem_of_mem_head? hnext) with h | h
    all_goals
      rw [hbest, h]
      decide +kernel

lemma score_twins {s : Scored} (hs : s ∈ Ranking.ofFeatures table (twins table name).scorer f) :
    s.signature.mnemonic = name ∧ s.score = 1.0 ∨ s.signature.mnemonic ≠ name ∧ s.score = 0.0 := by
  have hscore : s.score = Score.normalize (if s.signature.mnemonic = name then 1.0 else 0.0) :=
    (Ranking.mem_ofFeatures_iff.mp hs).2
  have hone : Score.normalize 1.0 = 1.0 := by with_unfolding_all rfl
  have hzero : Score.normalize 0.0 = 0.0 := by with_unfolding_all rfl
  split_ifs at hscore with hname
  · exact .inl ⟨hname, hscore.trans hone⟩
  · exact .inr ⟨hname, hscore.trans hzero⟩

/-- What stands before a signature of the mnemonic is one, too, and before it in the table. -/
lemma of_before_twins {s t : Scored} (hs : s ∈ Ranking.ofFeatures table (twins table name).scorer f)
    (ht : t.score = 1.0) (h : s.before t = true) :
    s.signature.mnemonic = name ∧ s.score = 1.0 ∧ s.index ≤ t.index := by
  have hkeys : Score.orderKey 0.0 < Score.orderKey 1.0 := by decide +kernel
  rw [Scored.before_iff, ht] at h
  rcases score_twins hs with ⟨hname, hscore⟩ | ⟨-, hscore⟩
  · rw [hscore] at h
    exact ⟨hname, hscore, by omega⟩
  · rw [hscore] at h
    omega

/-- What comes first in a part of the ranking in which there is a signature of the mnemonic. -/
lemma head_twins {a v : Scored} {rest : Ranking}
    (hsub : a :: rest ⊆ Ranking.ofFeatures table (twins table name).scorer f)
    (hpairwise : (a :: rest).Pairwise fun s t => s.before t = true) (hv : v ∈ a :: rest)
    (hname : v.signature.mnemonic = name) :
    a.signature.mnemonic = name ∧ a.score = 1.0 ∧ a.index ≤ v.index := by
  have hperfect : v.score = 1.0 := by
    rcases score_twins (hsub hv) with ⟨-, hscore⟩ | ⟨hne, -⟩
    · exact hscore
    · exact absurd hname hne
  rcases List.mem_cons.mp hv with rfl | hv
  · exact ⟨hname, hperfect, Nat.le_refl _⟩
  · exact of_before_twins (hsub List.mem_cons_self) hperfect
      ((List.pairwise_cons.mp hpairwise).1 v hv)

/-- In the ranking for a repeated mnemonic, the first signature that has it comes first, and another
one behind it. -/
lemma ranking_twins (h : table.Repeats name) (f : Features) :
    ∃ a b rest, Ranking.ofFeatures table (twins table name).scorer f = a :: b :: rest
      ∧ a.signature.mnemonic = name ∧ a.score = 1.0 ∧ a.signature.unique = true
      ∧ b.signature.mnemonic = name ∧ b.score = 1.0 ∧ b.index ≠ a.index
      ∧ ∀ s ∈ rest, s.score = 1.0 ∨ s.score = 0.0 := by
  obtain ⟨⟨s, hs, hunique⟩, hagain⟩ := h
  obtain ⟨hname, i, hi, hfirst, hiff⟩ := SignatureTable.exists_place_of_get? hs
  obtain ⟨j, t, hne, hj, htname⟩ := hiff.mp hagain
  obtain ⟨v, hv, rfl, rfl⟩ := Ranking.exists_mem_ofFeatures (twins table name).scorer f hi
  obtain ⟨w, hw, rfl, rfl⟩ := Ranking.exists_mem_ofFeatures (twins table name).scorer f hj
  have hpairwise := Ranking.pairwise_ofFeatures table (twins table name).scorer f
  have hnodup := Ranking.nodup_index table (twins table name).scorer f
  obtain ⟨a, others, hranking⟩ := List.exists_cons_of_ne_nil (List.ne_nil_of_mem hv)
  have hsub : a :: others ⊆ Ranking.ofFeatures table (twins table name).scorer f :=
    hranking ▸ List.Subset.refl _
  rw [hranking] at hpairwise hnodup hv hw ⊢
  obtain ⟨ha, hascore, hale⟩ := head_twins hsub hpairwise hv hname
  -- nothing of the mnemonic stands before its first signature
  have halisted := (Ranking.mem_ofFeatures_iff.mp (hsub List.mem_cons_self)).1
  have haindex : a.index = v.index := Nat.le_antisymm hale (hfirst _ _ halisted ha)
  have haunique : a.signature.unique = true := by
    rw [haindex, hi] at halisted
    rwa [← Option.some.inj halisted]
  have hother : w ∈ others := by
    refine (List.mem_cons.mp hw).resolve_left fun heq => hne ?_
    rw [← haindex, heq]
  obtain ⟨b, rest, rfl⟩ := List.exists_cons_of_ne_nil (List.ne_nil_of_mem hother)
  have hbsub : b :: rest ⊆ Ranking.ofFeatures table (twins table name).scorer f :=
    fun u hu => hsub (List.mem_cons_of_mem _ hu)
  obtain ⟨hb, hbscore, -⟩ := head_twins hbsub (List.pairwise_cons.mp hpairwise).2 hother htname
  refine ⟨a, b, rest, rfl, ha, hascore, haunique, hb, hbscore, ?_, fun u hu => ?_⟩
  · intro heq
    simp [heq] at hnodup
  · rcases score_twins (hbsub (List.mem_cons_of_mem _ hu)) with ⟨-, hscore⟩ | ⟨-, hscore⟩
    · exact .inl hscore
    · exact .inr hscore

/-- Two opcodes of one ranking that starts with a unique signature and another one, both perfect:
each opcode gets one of them. -/
lemma run_twins {a b : Scored} {rest : Ranking} (ha : a.score = 1.0)
    (hunique : a.signature.unique = true) (hb : b.score = 1.0) (hne : b.index ≠ a.index)
    (hrest : ∀ s ∈ rest, s.score = 1.0 ∨ s.score = 0.0) :
    Contest.run noDemands
        ⟨[⟨1, a :: b :: rest⟩, ⟨2, a :: b :: rest⟩], [], .empty, []⟩
      = ⟨[], if b.signature.unique then [b.index, a.index] else [a.index],
        (Ledger.empty.insert 1 (.resolved a.candidate)).insert 2 (.resolved b.candidate), []⟩ := by
  -- at first, all is left to both opcodes, and the lower one leads
  have hall : Ranking.available [] (a :: b :: rest) = a :: b :: rest := by
    simp [Ranking.available]
  have hothers : ∀ s ∈ b :: rest, s.score = 1.0 ∨ s.score = 0.0 :=
    List.forall_mem_cons.mpr ⟨.inl hb, hrest⟩
  have hready (o : UInt8) (xs : List Contender) :
      Contest.standing noDemands ⟨xs, [], .empty, []⟩ ⟨o, a :: b :: rest⟩ = .ready a :=
    standing_eq_iff.mpr (hall.symm ▸ stands_of_perfect ha hothers)
  have hbehind : ¬ a.score > a.score := by
    rw [ha]
    decide +kernel
  have htie : ¬ a.score - a.score < noDemands.tieMargin := by
    rw [ha]
    decide +kernel
  have hleader : Contest.leader? noDemands
      ⟨[⟨1, a :: b :: rest⟩, ⟨2, a :: b :: rest⟩], [], .empty, []⟩
        = some (⟨1, a :: b :: rest⟩, a) := by
    simp [Contest.leader?, Contest.lead, hready, hbehind]
  -- then the first signature is gone
  have hleft : Ranking.available [a.index] (a :: b :: rest)
      = b :: Ranking.available [a.index] rest := by
    simp [Ranking.available, hunique, hne]
  have hready' (verdicts : Ledger UInt8 Verdict) :
      Contest.standing noDemands ⟨[⟨2, a :: b :: rest⟩], [a.index], verdicts, []⟩
        ⟨2, a :: b :: rest⟩ = .ready b :=
    standing_eq_iff.mpr (hleft.symm ▸ stands_of_perfect hb
      fun s hs => hrest s (List.mem_filter.mp hs).1)
  have hleader' (verdicts : Ledger UInt8 Verdict) :
      Contest.leader? noDemands ⟨[⟨2, a :: b :: rest⟩], [a.index], verdicts, []⟩
        = some (⟨2, a :: b :: rest⟩, b) := by
    simp [Contest.leader?, Contest.lead, hready']
  rw [Contest.run_of_ready (by simp [hready]) hleader, Contest.assign_of_claimants
    (by simp [Contest.claimants, Contest.isRival, hall, htie]), if_pos hunique]
  change Contest.run noDemands ⟨[⟨2, a :: b :: rest⟩], [a.index],
    Ledger.empty.insert 1 (.resolved a.candidate), []⟩ = _
  rw [Contest.run_of_ready (by simp [hready']) (hleader' _), Contest.assign_of_claimants
    (by simp [Contest.claimants]), Contest.run_of_nobody rfl]
  rfl

/-- Two opcodes are resolved to a mnemonic that is repeated. -/
lemma names_twins (h : table.Repeats name) :
    ((twins table name).resolve sampleProfiles []).mapping.Names 1 name
      ∧ ((twins table name).resolve sampleProfiles []).mapping.Names 2 name := by
  obtain ⟨a, b, rest, hranking, hname, ha, hunique, hname', hb, hne, hrest⟩ :=
    ranking_twins h (Features.ofProfile sampleProfiles { opcode := 1, occurrences := 1 })
  have hstart : (twins table name).start sampleProfiles []
      = ⟨[⟨1, a :: b :: rest⟩, ⟨2, a :: b :: rest⟩], [], .empty, []⟩ := by
    rw [← hranking]
    rfl
  have hmapping : ((twins table name).resolve sampleProfiles []).mapping.verdicts
      = (Ledger.empty.insert 1 (.resolved a.candidate)).insert 2 (.resolved b.candidate) := by
    rw [resolve, hstart]
    change Contest.finish noDemands (Contest.run noDemands _) = _
    rw [run_twins ha hunique hb hne hrest]
    rfl
  constructor
  · refine ⟨.resolved a.candidate, ?_, congrArg some hname⟩
    rw [Mapping.get?, hmapping]
    rfl
  · refine ⟨.resolved b.candidate, ?_, congrArg some hname'⟩
    rw [Mapping.get?, hmapping]
    rfl

/-- **The check agrees with the resolver exactly on tables that repeat no unique mnemonic**: it
finds nothing in any mapping that is resolved with a table, whatever the scorer, the demands, the
profiles and the opcodes known, exactly if no mnemonic whose first signature is unique has another
one. -/
theorem violations_resolve_eq_nil_iff (table : SignatureTable) :
    (∀ scorer config profiles known,
      ((Resolver.mk table scorer config).resolve profiles known).mapping.violations table = [])
    ↔ ∀ name, ¬ table.Repeats name := by
  constructor
  · intro h name hrepeats
    obtain ⟨s, hs, hunique⟩ := hrepeats.unique
    obtain ⟨hone, htwo⟩ := names_twins hrepeats
    have hnone := h (twins table name).scorer noDemands sampleProfiles []
    have hsame : (1 : UInt8) = 2 :=
      Mapping.violations_eq_nil_iff.mp hnone name (by simp [hs, hunique]) 1 2 hone htwo
    exact absurd hsame (by decide)
  · intro h scorer config profiles known
    exact violations_resolve_eq_nil h

/-- A table that has one unique signature twice, which everything fits; no lead is asked for. -/
def sampleTwice : Resolver where
  signatures := ⟨1, [SignatureTable.plain "pop" .none 1 0, SignatureTable.plain "pop" .none 1 0]⟩
  scorer _ _ := 1.0
  config := { MappingConfig.default with tieMargin := 0.0 }

/-- The check finds a violation in a mapping of the resolver. -/
theorem violations_resolve_sampleTwice :
    (sampleTwice.resolve sampleProfiles []).mapping.violations sampleTwice.signatures
      = [("pop", [1, 2])] := by
  have hranking (f : Features) : Ranking.ofFeatures sampleTwice.signatures sampleTwice.scorer f
      = Ranking.scores sampleTwice.signatures sampleTwice.scorer f := by
    refine Ranking.ofFeatures_eq_scores ?_
    change (Ranking.scores sampleTwice.signatures (fun _ _ => 1.0) f).Pairwise _
    rw [Ranking.scores]
    decide +kernel
  rw [resolve, start]
  simp only [hranking]
  with_unfolding_all rfl

end Resolver

end OpcodeRecovery
