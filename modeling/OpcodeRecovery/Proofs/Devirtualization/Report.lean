import Mathlib.Tactic
import OpcodeRecovery.Proofs.Bisect
import OpcodeRecovery.Proofs.Code.Bookkeeping
import OpcodeRecovery.Proofs.Devirtualization.Transparency
import OpcodeRecovery.Proofs.Opcode.Coverage
import OpcodeRecovery.Proofs.Opcode.Merging

/-!
What a report says about the keys that were asked for.

* `Archive.fate_cases`: a method is decoded from what the archive yields for its key, or it fails
  under the key. So the methods and the failures of some keys share the keys among themselves
  (`Archive.map_key_methods`, `Archive.map_key_failures`).
* `Devirtualizer.Session`: what a devirtualizer of a resource may have become, after it was
  configured and run in any order. `Devirtualizer.Session.kept` says what stays true all along.
* `Report.Accounts`: a report accounts for some keys if it has a method or a failure for each of
  them, both in ascending order, and verdicts on the opcodes that are declared or stand in the
  methods. `Devirtualizer.run_accounts` says that every run ends with such a report.
-/

namespace OpcodeRecovery

/-! ### Fates -/

/-- What some items yield stands for the items that yield something, if it tells its item. -/
lemma map_filterMap_eq_filter {α β : Type} {f : α → Option β} {g : β → α}
    (h : ∀ a b, f a = some b → g b = a) (as : List α) :
    (as.filterMap f).map g = as.filter fun a => (f a).isSome := by
  induction as with
  | nil => rfl
  | cons a as ih =>
      cases ha : f a with
      | none => simp [ha, ih]
      | some b => simp [ha, ih, h a b ha]

/-- Whatever the error, it is told as a failure of its method. -/
lemma Fate.exists_ofError_eq (key : MethodKey) (bytes : Option ℕ) (e : Error) :
    ∃ text, Fate.ofError key bytes e = .failed key bytes text := by
  cases e <;> exact ⟨_, rfl⟩

namespace Archive

variable {a : Archive} {table : ShapeTable} {key : MethodKey}

/-- What can become of a method: it is decoded from its stream, or it fails under its key, and
there is nothing that it could be decoded as. -/
lemma fate_cases (a : Archive) (table : ShapeTable) (key : MethodKey) :
    (∃ stream m, a.extract key = .ok stream ∧ decodeMethod table stream = .ok m
        ∧ a.fate table key = .decoded m stream.data.length)
      ∨ (∃ bytes text, a.fate table key = .failed key bytes text)
        ∧ ∀ stream m, a.extract key = .ok stream → decodeMethod table stream ≠ .ok m := by
  rw [fate]
  cases hextract : a.extract key with
  | error e => exact .inr ⟨⟨none, Fate.exists_ofError_eq ..⟩, fun stream m h => by cases h⟩
  | ok stream =>
      simp only [Except.ok.injEq]
      cases hdecode : decodeMethod table stream with
      | ok m => exact .inl ⟨stream, m, rfl, hdecode, rfl⟩
      | error e =>
          refine .inr ⟨⟨some _, Fate.exists_ofError_eq ..⟩, ?_⟩
          rintro stream' m rfl h
          cases hdecode.symm.trans h

/-- A method has been decoded exactly if its stream is decoded as it. -/
lemma method?_fate_eq_some_iff {m : Method} :
    (a.fate table key).method? = some m
      ↔ ∃ stream, a.extract key = .ok stream ∧ decodeMethod table stream = .ok m := by
  rcases fate_cases a table key with ⟨stream, m', hextract, hdecode, hfate⟩
    | ⟨⟨bytes, text, hfate⟩, hnone⟩
  · rw [hfate, Fate.method?, Option.some.injEq]
    constructor
    · rintro rfl
      exact ⟨stream, hextract, hdecode⟩
    · rintro ⟨stream', hextract', hdecode'⟩
      obtain rfl := Except.ok.inj (hextract.symm.trans hextract')
      exact Except.ok.inj (hdecode.symm.trans hdecode')
  · rw [hfate, Fate.method?]
    refine ⟨by simp, ?_⟩
    rintro ⟨stream, hextract, hdecode⟩
    exact absurd hdecode (hnone stream m hextract)

/-- Whether a method can be read and decoded. -/
def decodes (a : Archive) (table : ShapeTable) (key : MethodKey) : Bool :=
  (a.fate table key).method?.isSome

lemma key_of_method?_fate {m : Method} (h : (a.fate table key).method? = some m) : m.key = key := by
  obtain ⟨stream, hextract, hdecode⟩ := method?_fate_eq_some_iff.mp h
  exact (key_of_decodeMethod hdecode).trans (key_of_extract hextract)

lemma key_of_failure?_fate {f : MethodKey × String} (h : (a.fate table key).failure? = some f) :
    f.1 = key := by
  rcases fate_cases a table key with ⟨stream, m, -, -, hfate⟩ | ⟨⟨bytes, text, hfate⟩, -⟩
  · rw [hfate] at h
    cases h
  · rw [hfate] at h
    obtain rfl := Option.some.inj h
    rfl

/-- The methods among the fates of some keys are those of the keys that can be decoded, in their
order. -/
lemma map_key_methods (a : Archive) (table : ShapeTable) (keys : List MethodKey) :
    ((keys.map (a.fate table)).filterMap (·.method?)).map (·.key)
      = keys.filter (a.decodes table) := by
  have hkey : ∀ k m, ((·.method?) ∘ a.fate table) k = some m → m.key = k :=
    fun _ _ h => key_of_method?_fate h
  rw [List.filterMap_map, map_filterMap_eq_filter hkey]
  rfl

/-- The failures among the fates of some keys are those of the other keys, in their order. -/
lemma map_key_failures (a : Archive) (table : ShapeTable) (keys : List MethodKey) :
    ((keys.map (a.fate table)).filterMap (·.failure?)).map Prod.fst
      = keys.filter fun k => !a.decodes table k := by
  have hkey : ∀ k f, ((·.failure?) ∘ a.fate table) k = some f → f.1 = k :=
    fun _ _ h => key_of_failure?_fate h
  rw [List.filterMap_map, map_filterMap_eq_filter hkey]
  refine List.filter_congr fun k _ => ?_
  rw [Function.comp_apply, decodes]
  cases a.fate table k <;> rfl

end Archive

/-! ### Reports -/

namespace Report

/-- The report has a method or a failure for each of the keys and for no other, both in ascending
order. Its methods are what the archive's streams are decoded as, and are found by their keys. It
has verdicts on exactly the opcodes that are declared or stand in its methods. -/
structure Accounts (archive : Archive) (table : ShapeTable) (keys : List MethodKey) (r : Report) :
    Prop where
  methods_ascending : (r.methods.map (·.key)).Pairwise fun a b => rank a < rank b
  failures_ascending : (r.failures.map (·.1)).Pairwise fun a b => rank a < rank b
  disjoint : ∀ k ∈ r.methods.map (·.key), k ∉ r.failures.map (·.1)
  complete : ∀ k, k ∈ keys ↔ k ∈ r.methods.map (·.key) ∨ k ∈ r.failures.map (·.1)
  decoded : ∀ m ∈ r.methods, ∃ stream, archive.extract m.key = .ok stream
    ∧ decodeMethod table stream = .ok m
  found : ∀ k m, r.method? k = some m ↔ m ∈ r.methods ∧ m.key = k
  mapped : ∀ o, (r.mapping.get? o).isSome
    ↔ (table.get? o).isSome ∨ ∃ m ∈ r.methods, ∃ i ∈ m.instructions.toList, i.opcode = o

/-- Methods in ascending order are found by their keys. -/
lemma method?_eq_some_iff {r : Report}
    (h : (r.methods.map (·.key)).Pairwise fun a b => rank a < rank b) {k : MethodKey} {m : Method} :
    r.method? k = some m ↔ m ∈ r.methods ∧ m.key = k := by
  have hascending : r.methods.toArray.toList.Pairwise fun x y => rank x.key < rank y.key := by
    rwa [List.pairwise_map] at h
  rw [method?, Option.bind_eq_some_iff]
  simp only [bisect_eq_some_iff hascending, List.getElem?_toArray]
  constructor
  · rintro ⟨i, ⟨x, hx, hrank⟩, hm⟩
    obtain rfl := Option.some.inj (hx.symm.trans hm)
    exact ⟨List.mem_of_getElem? hm, Ranked.rank_injective _ _ hrank⟩
  · rintro ⟨hmem, rfl⟩
    obtain ⟨i, hi⟩ := List.mem_iff_getElem?.mp hmem
    exact ⟨i, ⟨m, hi, rfl⟩, hi⟩

end Report

/-! ### Sessions -/

namespace Devirtualizer

variable {resource : Resource} {table : ShapeTable} {config : RunConfig} {d : Devirtualizer}

/-- What a devirtualizer of a resource may have become: it was opened, and then parts of it were
replaced, and it was run, in any order. -/
inductive Session (resource : Resource) (table : ShapeTable) (config : RunConfig) :
    Devirtualizer → Prop where
  | opened {d : Devirtualizer} (h : ofResource resource table config = .ok d) :
      Session resource table config d
  | configured {d : Devirtualizer} (h : Session resource table config d) (s : Setting) :
      Session resource table config (d.configure [s])
  | ran {d : Devirtualizer} (h : Session resource table config d) (keys : List MethodKey) :
      Session resource table config (d.run keys).next

/-- What stays true of a devirtualizer: it has the archive and the table it was opened with, its
cache holds nothing but what these yield, and the declared opcodes are expected to exist. -/
structure Kept (resource : Resource) (table : ShapeTable) (d : Devirtualizer) : Prop where
  archive : Archive.ofResource resource = .ok d.archive
  table_eq : d.cache.table = table
  genuine : d.Genuine
  expected : d.mapper.expected = table.opcodes

lemma Session.kept (h : Session resource table config d) : Kept resource table d := by
  induction h with
  | @opened d h =>
      obtain ⟨archive, hopen, hd⟩ := bind_eq_ok_iff.mp h
      obtain rfl := Except.ok.inj hd
      exact ⟨hopen, rfl, .empty archive table, rfl⟩
  | @configured d h s ih =>
      obtain ⟨harchive, htable, hgenuine, hexpected⟩ := ih
      cases s with
      | signatures signatures => exact ⟨harchive, htable, hgenuine, by rw [← htable]; rfl⟩
      | scorer scorer => exact ⟨harchive, htable, hgenuine, hexpected⟩
      | matcher matcher => exact ⟨harchive, htable, hgenuine, hexpected⟩
  | @ran d h keys ih =>
      obtain ⟨harchive, htable, hgenuine, hexpected⟩ := ih
      obtain ⟨c, hc, hnext⟩ := next_run hgenuine keys
      rw [hnext]
      exact ⟨harchive, hc.table_eq.trans htable, by rwa [Genuine, hc.table_eq], hexpected⟩

/-- The failures of the keys are among the failures of the survey. -/
lemma failure_mem_survey {keys : List MethodKey} {k : MethodKey} (hk : k ∈ Ledger.distinct keys)
    {f : MethodKey × String} (hf : (d.archive.fate d.cache.table k).failure? = some f) :
    f ∈ (d.survey keys).failures :=
  List.mem_filterMap.mpr ⟨_, List.mem_map_of_mem hk, hf⟩

/-- A survey accounts for its keys, if the declared opcodes are expected to exist. -/
lemma survey_accounts (hexpected : d.mapper.expected = d.cache.table.opcodes)
    (keys : List MethodKey) : (d.survey keys).Accounts d.archive d.cache.table keys := by
  have hmethods : (d.survey keys).methods.map (·.key)
      = (Ledger.distinct keys).filter (d.archive.decodes d.cache.table) :=
    Archive.map_key_methods _ _ _
  have hfailures : (d.survey keys).failures.map (·.1)
      = (Ledger.distinct keys).filter fun k => !d.archive.decodes d.cache.table k :=
    Archive.map_key_failures _ _ _
  have hascending : ((d.survey keys).methods.map (·.key)).Pairwise fun a b => rank a < rank b := by
    rw [hmethods]
    exact (Ledger.pairwise_distinct keys).filter _
  refine ⟨hascending, ?_, ?_, ?_, ?_, fun k m => Report.method?_eq_some_iff hascending, ?_⟩
  · rw [hfailures]
    exact (Ledger.pairwise_distinct keys).filter _
  · intro k hk hfailed
    rw [hmethods] at hk
    rw [hfailures] at hfailed
    simp [(List.mem_filter.mp hk).2] at hfailed
  · intro k
    rw [hmethods, hfailures, List.mem_filter, List.mem_filter, Ledger.mem_distinct]
    cases d.archive.decodes d.cache.table k <;> simp
  · intro m hm
    obtain ⟨fate, hfate, hmethod⟩ := List.mem_filterMap.mp hm
    obtain ⟨key, -, rfl⟩ := List.mem_map.mp hfate
    rw [Archive.key_of_method?_fate hmethod]
    exact Archive.method?_fate_eq_some_iff.mp hmethod
  · intro o
    have hmapping : (d.survey keys).mapping = (d.mapper.resolver.resolve
        (ProfileSet.ofMethods (d.survey keys).methods) d.mapper.expected).mapping := rfl
    rw [hmapping, Resolver.isSome_get?_resolve, ProfileSet.mem_opcodes_ofMethods, hexpected,
      ShapeTable.opcodes, Ledger.mem_keys_iff, or_comm]
    rfl

/-- **A run accounts for its keys**: however a devirtualizer was configured and run since it was
opened on a resource, a run ends with a report, and the report accounts for the keys that were
asked for, whatever their order and whether or not they stand in the archive. -/
theorem run_accounts (hd : Session resource table config d) (keys : List MethodKey) :
    ∃ archive report, Archive.ofResource resource = .ok archive
      ∧ (d.run keys).result = .ok report ∧ report.Accounts archive table keys := by
  obtain ⟨harchive, rfl, hgenuine, hexpected⟩ := hd.kept
  exact ⟨d.archive, d.survey keys, harchive, result_run hgenuine keys,
    survey_accounts hexpected keys⟩

/-- A devirtualizer of the sample resource, as it is opened. -/
def sample : Devirtualizer :=
  ⟨sampleArchive, Cache.empty .default,
    Mapper.ofConfig .cil RunConfig.strict.mapping ShapeTable.default.opcodes, .strict, .magic⟩

lemma session_sample : Session sampleResource .default .strict sample := by
  have hopen : Archive.ofResource sampleResource = .ok sampleArchive := by cbv
  refine .opened ?_
  rw [ofResource, hopen]
  rfl

/-- Keys out of order and with a repetition, one of them of no method. -/
def sampleKeys : List MethodKey :=
  [⟨⟨0x06000003⟩, 1⟩, ⟨⟨0x06000002⟩, 9⟩, ⟨⟨0x06000001⟩, 7⟩, ⟨⟨0x06000002⟩, 9⟩]

theorem run_accounts_sample :
    Session sampleResource .default .strict (sample.run sampleKeys).next
      ∧ ∃ archive report, Archive.ofResource sampleResource = .ok archive
        ∧ ((sample.run sampleKeys).next.run sampleKeys).result = .ok report
        ∧ report.Accounts archive .default sampleKeys :=
  ⟨session_sample.ran sampleKeys, run_accounts (session_sample.ran sampleKeys) sampleKeys⟩

end Devirtualizer

end OpcodeRecovery
