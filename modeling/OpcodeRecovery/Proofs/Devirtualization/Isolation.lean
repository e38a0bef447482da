import Mathlib.Tactic
import OpcodeRecovery.Proofs.Devirtualization.Report

/-!
A method that fails leaves no trace in what is reported about the others.

* `Archive.Fails`: a method is not in the archive, cannot be read from it, or cannot be decoded.
  These are the methods that no report has (`Archive.fails_iff`).
* `Devirtualizer.methods_survey_congr` and `Devirtualizer.failures_survey_congr`: a survey depends
  on its keys through those that can be decoded, and each of its failures on its own key.
* `Devirtualizer.failing_keys_isolated`: two runs whose keys differ in failing methods alone report
  the same methods, the same mapping, and the same failures of the keys that both were asked for.
-/

namespace OpcodeRecovery

/-! ### Failing methods -/

namespace Archive

variable {a : Archive} {table : ShapeTable} {key : MethodKey}

/-- Why a method cannot be devirtualized. -/
inductive Fails (a : Archive) (table : ShapeTable) (key : MethodKey) : Prop where
  | absent (h : key ∉ a.keys)
  | unreadable {e : Error} (h : a.extract key = .error e)
  | rejected {stream : Stream} {e : Error} (h : a.extract key = .ok stream)
      (hdecode : decodeMethod table stream = .error e)

lemma mem_keys_of_extract {stream : Stream} (h : a.extract key = .ok stream) : key ∈ a.keys := by
  obtain ⟨entry, hentry, -⟩ := extract_eq_ok_iff.mp h
  rw [← key_of_find? hentry]
  exact List.mem_map_of_mem (List.mem_of_find?_eq_some hentry)

lemma decodes_eq_true_iff : a.decodes table key = true
    ↔ ∃ stream m, a.extract key = .ok stream ∧ decodeMethod table stream = .ok m := by
  rw [decodes, Option.isSome_iff_exists]
  simp only [method?_fate_eq_some_iff]
  exact exists_comm

/-- The methods that fail are those that cannot be decoded. -/
lemma fails_iff : a.Fails table key ↔ a.decodes table key = false := by
  rw [← Bool.not_eq_true, decodes_eq_true_iff]
  constructor
  · rintro hfails ⟨stream, m, hextract, hdecode⟩
    cases hfails with
    | absent h => exact h (mem_keys_of_extract hextract)
    | unreadable h => cases hextract.symm.trans h
    | rejected h hdecode' =>
        obtain rfl := Except.ok.inj (hextract.symm.trans h)
        cases hdecode.symm.trans hdecode'
  · intro hnone
    cases hextract : a.extract key with
    | error e => exact .unreadable hextract
    | ok stream =>
        cases hdecode : decodeMethod table stream with
        | error e => exact .rejected hextract hdecode
        | ok m => exact absurd ⟨stream, m, hextract, hdecode⟩ hnone

/-- The failures of some of the keys may be picked before or after they are collected. -/
lemma failures_filter (a : Archive) (table : ShapeTable) (p : MethodKey → Bool)
    (keys : List MethodKey) :
    ((keys.map (a.fate table)).filterMap (·.failure?)).filter (fun f => p f.1)
      = ((keys.filter p).map (a.fate table)).filterMap (·.failure?) := by
  rw [List.filterMap_map, List.filterMap_map, List.filterMap_filter, List.filter_filterMap]
  refine List.filterMap_congr fun k _ => ?_
  rw [Function.comp_apply]
  cases hf : (a.fate table k).failure? with
  | none => simp
  | some f => rw [Option.filter_some, key_of_failure?_fate hf]

end Archive

/-! ### Isolation -/

namespace Devirtualizer

variable {resource : Resource} {table : ShapeTable} {config : RunConfig} {d : Devirtualizer}
  {keys keys' : List MethodKey}

/-- A survey has the same methods if the same keys that can be decoded are asked for. -/
lemma methods_survey_congr
    (h : ∀ k, d.archive.decodes d.cache.table k = true → (k ∈ keys ↔ k ∈ keys')) :
    (d.survey keys).methods = (d.survey keys').methods := by
  rw [survey, survey]
  dsimp only
  rw [List.filterMap_map, List.filterMap_map]
  exact Ledger.filterMap_distinct_congr h

/-- A survey tells of a failure in the same way, whatever else is asked for. -/
lemma failures_survey_congr {p : MethodKey → Bool}
    (h : ∀ k, p k = true → (k ∈ keys ↔ k ∈ keys')) :
    (d.survey keys).failures.filter (fun f => p f.1)
      = (d.survey keys').failures.filter fun f => p f.1 := by
  rw [survey, survey]
  dsimp only
  rw [Archive.failures_filter, Archive.failures_filter, Ledger.filter_distinct_congr h]

/-- **Failing methods do not influence the rest**: let two lists of keys differ in methods alone
that fail. Then, however the devirtualizer was configured and run before, and whatever is asked for
before each of the two runs, both end with a report. The reports have the same methods and the same
mapping, and the same failures of the keys that stand in both lists. -/
theorem failing_keys_isolated (hd : Session resource table config d)
    (history history' : List Request)
    (hfails : ∀ k, ¬(k ∈ keys ↔ k ∈ keys') → d.archive.Fails table k) :
    ∃ r r', ((d.after history).run keys).result = .ok r
      ∧ ((d.after history').run keys').result = .ok r'
      ∧ r.methods = r'.methods ∧ r.mapping = r'.mapping
      ∧ r.failures.filter (fun f => decide (f.1 ∈ keys ∧ f.1 ∈ keys'))
        = r'.failures.filter fun f => decide (f.1 ∈ keys ∧ f.1 ∈ keys') := by
  obtain ⟨-, rfl, hgenuine, -⟩ := hd.kept
  have hdecodes : ∀ k, d.archive.decodes d.cache.table k = true → (k ∈ keys ↔ k ∈ keys') := by
    intro k hk
    by_contra hdiffer
    rw [Archive.fails_iff.mp (hfails k hdiffer)] at hk
    cases hk
  have hmethods := methods_survey_congr hdecodes
  -- the mapping is computed from the methods alone
  have hmapping : (d.survey keys).mapping = (d.survey keys').mapping :=
    congrArg (fun methods => (d.mapper.map methods).1) hmethods
  have hboth : ∀ k, decide (k ∈ keys ∧ k ∈ keys') = true → (k ∈ keys ↔ k ∈ keys') := by
    intro k hk
    obtain ⟨hkeys, hkeys'⟩ := of_decide_eq_true hk
    exact iff_of_true hkeys hkeys'
  exact ⟨d.survey keys, d.survey keys', result_answer_after hgenuine history (.some keys),
    result_answer_after hgenuine history' (.some keys'), hmethods, hmapping,
    failures_survey_congr hboth⟩

/-- A method that can be decoded, one that is rejected, and one that the sample does not have. -/
def sampleWithAbsent : List MethodKey :=
  [⟨⟨0x06000001⟩, 7⟩, ⟨⟨0x06000002⟩, 9⟩, ⟨⟨0x06000003⟩, 1⟩]

/-- Both methods of the sample, and another one that it does not have. -/
def sampleWithOther : List MethodKey :=
  [⟨⟨0x06000004⟩, 1⟩, ⟨⟨0x06000002⟩, 9⟩, ⟨⟨0x06000001⟩, 7⟩]

/-- The rejected method stands in both lists. In the first run its failure is known from before, in
the second one it is new, and both tell of it in the same words. -/
theorem failing_keys_isolated_sample :
    (∀ k, ¬(k ∈ sampleWithAbsent ↔ k ∈ sampleWithOther) → sample.archive.Fails .default k)
      ∧ ∃ r r', ((sample.after [.all]).run sampleWithAbsent).result = .ok r
        ∧ ((sample.after []).run sampleWithOther).result = .ok r'
        ∧ r.methods = r'.methods ∧ r.mapping = r'.mapping
        ∧ r.failures.filter (fun f => decide (f.1 ∈ sampleWithAbsent ∧ f.1 ∈ sampleWithOther))
          = r'.failures.filter
            (fun f => decide (f.1 ∈ sampleWithAbsent ∧ f.1 ∈ sampleWithOther))
        ∧ (⟨⟨0x06000002⟩, 9⟩, Error.message (.format .emptyStream)) ∈ r'.failures.filter
            fun f => decide (f.1 ∈ sampleWithAbsent ∧ f.1 ∈ sampleWithOther) := by
  have hfails : ∀ k, ¬(k ∈ sampleWithAbsent ↔ k ∈ sampleWithOther)
      → sample.archive.Fails .default k := by
    intro k hk
    obtain rfl | rfl : k = ⟨⟨0x06000003⟩, 1⟩ ∨ k = ⟨⟨0x06000004⟩, 1⟩ := by
      simp only [sampleWithAbsent, sampleWithOther, List.mem_cons, List.not_mem_nil, or_false] at hk
      tauto
    · exact .absent (by decide)
    · exact .absent (by decide)
  obtain ⟨r, r', hr, hr', hmethods, hmapping, hfailures⟩ :=
    failing_keys_isolated session_sample [.all] [] hfails
  obtain ⟨-, -, hgenuine, -⟩ := session_sample.kept
  obtain rfl : r' = sample.survey sampleWithOther :=
    Except.ok.inj (hr'.symm.trans (result_answer_after hgenuine [] (.some sampleWithOther)))
  refine ⟨hfails, r, _, hr, hr', hmethods, hmapping, hfailures, List.mem_filter.mpr ⟨?_, by decide⟩⟩
  have hextract : sampleArchive.extract ⟨⟨0x06000002⟩, 9⟩ = .ok ⟨⟨⟨0x06000002⟩, 9⟩, []⟩ := by cbv
  have hmem : ⟨⟨0x06000002⟩, 9⟩ ∈ Ledger.distinct sampleWithOther := by decide
  refine failure_mem_survey hmem ?_
  rw [Archive.fate, sample, hextract]
  rfl

end Devirtualizer

end OpcodeRecovery
