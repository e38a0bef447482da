import Mathlib.Tactic
import OpcodeRecovery.Devirtualization
import OpcodeRecovery.Proofs.Code.Cache
import OpcodeRecovery.Proofs.Resource.Extraction
import OpcodeRecovery.Resource.Contents

/-!
The cache behind a devirtualizer cannot be noticed: a run reports what it would have reported on a
devirtualizer that was never used before.

* `Archive.fate` is what becomes of a method that is read and decoded without a cache.
* `Cache.Genuine` says that a cache holds nothing but what its archive yields. On such a cache a
  method has its fate, and the cache stays genuine (`Cache.Genuine.process`); so does a list of
  methods (`Cache.Genuine.processAll`), and a run reports the survey of its keys
  (`Devirtualizer.result_run`).
* `Devirtualizer.answer_eq_fresh`: whatever was asked for before, the answer to a request depends
  on the set of its keys alone.
-/

namespace OpcodeRecovery

/-! ### Without a cache -/

/-- What becomes of a method that is read and decoded for the first time. -/
def Archive.fate (a : Archive) (table : ShapeTable) (key : MethodKey) : Fate :=
  match a.extract key with
  | .error e => .ofError key none e
  | .ok stream =>
    match decodeMethod table stream with
    | .ok m => .decoded m stream.data.length
    | .error e => .ofError key (some stream.data.length) e

/-- A failure is told in the same words at first and later on. -/
lemma Fate.ofError_methodFailed {e : Error} (h : e.Firsthand) (key : MethodKey)
    (bytes : Option ℕ) :
    Fate.ofError key bytes (.methodFailed key e.message) = .ofError key bytes e := by
  cases e with
  | methodFailed key' text => exact absurd rfl (h.2 key' text)
  | _ => rfl

/-! ### With a cache -/

namespace Cache

/-- Every key that the cache knows stands in the archive, with the bytes by which it is marked and
the result that decoding them has. -/
structure Genuine (a : Archive) (table : ShapeTable) (c : Cache) : Prop where
  table_eq : c.table = table
  known : ∀ {k f}, c.mark? k = some f → ∃ stream, a.extract k = .ok stream
    ∧ f = fingerprint stream.data ∧ c.outcome? k = some (kept (decodeMethod table stream))

variable {a : Archive} {table : ShapeTable} {c : Cache} {key : MethodKey} {stream : Stream}

lemma Genuine.empty (a : Archive) (table : ShapeTable) : Genuine a table (Cache.empty table) :=
  ⟨rfl, fun h => by cases h⟩

/-- A stream of the archive is decoded for its own key. -/
lemma decodeFor_of_extract (h : a.extract key = .ok stream) :
    decodeFor table key stream = decodeMethod table stream :=
  if_pos (Archive.key_of_extract h)

/-- A request with the archive's stream is answered from the stream, at first hand or as recalled,
and the result is kept. -/
lemma Genuine.request (hc : Genuine a table c) (h : a.extract key = .ok stream) :
    Genuine a table (c.request key stream).1
      ∧ (c.request key stream).1.outcome? key = some (kept (decodeMethod table stream))
      ∧ ((c.request key stream).2.result = decodeMethod table stream
        ∨ (c.request key stream).2.result = recalled key (kept (decodeMethod table stream))) := by
  cases hmark : c.mark? key with
  | some f =>
      obtain ⟨stream', hstream', rfl, ho⟩ := hc.known hmark
      obtain rfl := Except.ok.inj (hstream'.symm.trans h)
      rw [request_of_kept hmark ho]
      exact ⟨hc, ho, .inr rfl⟩
  | none =>
      have hself : (c.enroll key (fingerprint stream.data)).1.mark? key
          = some (fingerprint stream.data) := by
        simp [mark?_enroll, hmark]
      have hdecode : decodeFor (c.enroll key (fingerprint stream.data)).1.table key stream
          = decodeMethod table stream := by
        rw [table_enroll, hc.table_eq, decodeFor_of_extract h]
      rw [request_of_new hmark]
      refine ⟨⟨?_, fun {k f} hk => ?_⟩, ?_, .inl ?_⟩
      · rw [table_decode, table_enroll, hc.table_eq]
      · rw [mark?_decode hself, mark?_enroll] at hk
        simp only [outcome?_decode, outcome?_enroll, hdecode]
        split_ifs at hk ⊢ with hkey
        · subst hkey
          rw [hmark] at hk
          exact ⟨stream, h, (Option.some.inj hk).symm, rfl⟩
        · exact hc.known hk
      · rw [outcome?_decode, if_pos rfl, hdecode]
      · rw [result_decode, hdecode]

/-- One method has its fate, and the cache stays genuine. -/
lemma Genuine.process (hc : Genuine a table c) (verify : Bool) (key : MethodKey) :
    (Devirtualizer.process a verify c key).2.1 = .ok (a.fate table key)
      ∧ Genuine a table (Devirtualizer.process a verify c key).1 := by
  rw [Devirtualizer.process, Archive.fate]
  cases h : a.extract key with
  | error e =>
      obtain ⟨fault, rfl⟩ := Archive.extract_faulty a key e h
      exact ⟨rfl, hc⟩
  | ok stream =>
      obtain ⟨hnext, hkept, hresult⟩ := hc.request h
      refine ⟨?_, hnext⟩
      dsimp only
      cases hdecode : decodeMethod table stream with
      | ok m =>
          have hm : (c.request key stream).2.result = .ok m := by
            rw [hdecode] at hresult
            exact hresult.elim id id
          have hverify : (c.request key stream).1.verify key stream = .ok () :=
            verify_of_kept (by rw [hnext.table_eq, hkept])
          rw [hm]
          cases verify with
          | true =>
              simp only [if_true, hverify]
              rfl
          | false => rfl
      | error e =>
          -- the two ways of being told of a failure come to the same fate
          have hfirsthand := decodeMethod_firsthand hdecode
          rw [hdecode] at hresult
          rcases hresult with hfirst | hlater
          · simp only [hfirst, hfirsthand.1]
            rfl
          · rw [hlater]
            exact congrArg Except.ok (Fate.ofError_methodFailed hfirsthand key _)

/-- The methods have their fates one after the other, and the cache stays genuine. -/
lemma Genuine.processAll (hc : Genuine a table c) (verify : Bool) (keys : List MethodKey) :
    (Devirtualizer.processAll a verify c keys).2.1 = .ok (keys.map (a.fate table))
      ∧ Genuine a table (Devirtualizer.processAll a verify c keys).1 := by
  induction keys generalizing c with
  | nil => exact ⟨rfl, hc⟩
  | cons key keys ih =>
      obtain ⟨hfate, hnext⟩ := hc.process verify key
      obtain ⟨hfates, hlast⟩ := ih hnext
      simp only [Devirtualizer.processAll, hfate, hfates]
      exact ⟨rfl, hlast⟩

end Cache

/-! ### Runs -/

namespace Devirtualizer

variable {d : Devirtualizer} {c : Cache}

/-- The report on some keys, each of them read and decoded for the first time. -/
def survey (d : Devirtualizer) (keys : List MethodKey) : Report :=
  let fates := (Ledger.distinct keys).map (d.archive.fate d.cache.table)
  let methods := fates.filterMap (·.method?)
  ⟨methods, fates.filterMap (·.failure?), (d.mapper.map methods).1⟩

/-- The survey depends on the set of keys alone. -/
lemma survey_congr (d : Devirtualizer) {keys keys' : List MethodKey}
    (h : ∀ k, k ∈ keys ↔ k ∈ keys') : d.survey keys = d.survey keys' := by
  rw [survey, survey, Ledger.distinct_eq_of_mem_iff h]

/-- The devirtualizer's cache holds nothing but what its archive yields. -/
abbrev Genuine (d : Devirtualizer) : Prop := Cache.Genuine d.archive d.cache.table d.cache

/-- A run reports the survey of its keys. -/
lemma result_run (hd : d.Genuine) (keys : List MethodKey) :
    (d.run keys).result = .ok (d.survey keys) := by
  rw [run, survey]
  simp only [(hd.processAll d.config.verify (Ledger.distinct keys)).1]

/-- A run changes nothing but the cache, which stays genuine. -/
lemma next_run (hd : d.Genuine) (keys : List MethodKey) :
    ∃ c, Cache.Genuine d.archive d.cache.table c ∧ (d.run keys).next = { d with cache := c } := by
  obtain ⟨hfates, hnext⟩ := hd.processAll d.config.verify (Ledger.distinct keys)
  refine ⟨_, hnext, ?_⟩
  rw [run]
  simp only [hfates]

/-! ### Requests -/

/-- What a devirtualizer is asked for. -/
inductive Request where
  /-- All methods of the archive. -/
  | all
  /-- The methods of some keys. -/
  | some (keys : List MethodKey)

/-- The keys that are asked for. -/
def Request.keys (a : Archive) : Request → List MethodKey
  | all => a.keys
  | some keys => keys

/-- The run that a request asks for. -/
def answer (d : Devirtualizer) : Request → Outcome
  | .all => d.runAll
  | .some keys => d.run keys

lemma answer_eq_run (d : Devirtualizer) (r : Request) : d.answer r = d.run (r.keys d.archive) := by
  cases r <;> rfl

/-- The devirtualizer after a number of requests. -/
def after (d : Devirtualizer) (history : List Request) : Devirtualizer :=
  history.foldl (fun d r => (d.answer r).next) d

lemma after_append (d : Devirtualizer) (history : List Request) (r : Request) :
    d.after (history ++ [r]) = ((d.after history).answer r).next :=
  List.foldl_append

/-- Requests change nothing but the cache, which stays genuine. -/
lemma after_eq (hd : d.Genuine) (history : List Request) :
    ∃ c, Cache.Genuine d.archive d.cache.table c ∧ d.after history = { d with cache := c } := by
  induction history using List.reverseRecOn with
  | nil => exact ⟨d.cache, hd, rfl⟩
  | append_singleton history r ih =>
      obtain ⟨c, hc, hafter⟩ := ih
      have hgenuine : Genuine { d with cache := c } := by rwa [Genuine, hc.table_eq]
      obtain ⟨c', hc', hnext⟩ := next_run hgenuine (r.keys d.archive)
      rw [hc.table_eq] at hc'
      exact ⟨c', hc', by rw [after_append, hafter, answer_eq_run, hnext]⟩

/-- After any requests, a request is answered with the survey of its keys. -/
lemma result_answer_after (hd : d.Genuine) (history : List Request) (r : Request) :
    ((d.after history).answer r).result = .ok (d.survey (r.keys d.archive)) := by
  obtain ⟨c, hc, hafter⟩ := after_eq hd history
  have hgenuine : Genuine { d with cache := c } := by rwa [Genuine, hc.table_eq]
  calc ((d.after history).answer r).result
      = (run { d with cache := c } (r.keys d.archive)).result := by rw [hafter, answer_eq_run]
    _ = .ok (survey { d with cache := c } (r.keys d.archive)) := result_run hgenuine _
    _ = .ok (d.survey (r.keys d.archive)) := by rw [survey, survey, hc.table_eq]

/-- A part of a devirtualizer that can be replaced. -/
inductive Setting where
  | signatures (table : SignatureTable)
  | scorer (scorer : Scorer)
  | matcher (matcher : Matcher)

/-- The same with other parts, replaced one after the other. -/
def configure (d : Devirtualizer) (settings : List Setting) : Devirtualizer :=
  settings.foldl
    (fun d => fun
      | .signatures table => d.withSignatures table
      | .scorer scorer => d.withScorer scorer
      | .matcher matcher => { d with matcher })
    d

lemma configure_eq (d : Devirtualizer) (settings : List Setting) :
    (d.configure settings).archive = d.archive ∧ (d.configure settings).cache = d.cache := by
  induction settings generalizing d with
  | nil => exact ⟨rfl, rfl⟩
  | cons s settings ih => cases s <;> exact ih _

/-- **Requests do not influence each other**: on a devirtualizer for an archive that could be
opened, with whatever settings, every request is answered with a report, after any history. It is
the one that a request for the same set of keys gets at first, which is the survey of the keys. -/
theorem answer_eq_fresh {resource : Resource} {archive : Archive}
    (hopen : Archive.ofResource resource = .ok archive) (table : ShapeTable) (config : RunConfig)
    (settings : List Setting) (history : List Request) {request request' : Request}
    (hkeys : ∀ k, k ∈ request.keys archive ↔ k ∈ request'.keys archive) :
    ∃ d, (ofResource resource table config).map (·.configure settings) = .ok d
      ∧ ((d.after history).answer request).result = .ok (d.survey (request'.keys archive))
      ∧ (d.answer request').result = .ok (d.survey (request'.keys archive)) := by
  let d₀ : Devirtualizer := ⟨archive, Cache.empty table,
    Mapper.ofConfig .cil config.mapping table.opcodes, config, .magic⟩
  obtain ⟨harchive, hcache⟩ := d₀.configure_eq settings
  have hd : (d₀.configure settings).Genuine := by
    rw [Genuine, harchive, hcache]
    exact .empty archive table
  have hanswer : ∀ history r, (((d₀.configure settings).after history).answer r).result
      = .ok ((d₀.configure settings).survey (r.keys archive)) := by
    intro history r
    rw [result_answer_after hd, harchive]
  refine ⟨d₀.configure settings, ?_, ?_, hanswer [] request'⟩
  · rw [ofResource, hopen]
    rfl
  · rw [hanswer, survey_congr _ hkeys]

/-- A resource with a method that can be decoded and one that cannot. -/
def sampleResource : Resource :=
  ⟨Resource.Contents.write
    ⟨.v1, ⟨false⟩, [⟨⟨⟨0x06000001⟩, 7⟩, [0x00, 0x2A]⟩, ⟨⟨⟨0x06000002⟩, 9⟩, []⟩]⟩, by decide⟩

/-- What is read of the resource when it is opened. -/
def sampleArchive : Archive :=
  ⟨sampleResource, ⟨.v1, ⟨false⟩, 2, 9, 33⟩,
    [⟨⟨⟨0x06000001⟩, 7⟩, 0⟩, ⟨⟨⟨0x06000002⟩, 9⟩, 3⟩]⟩

/-- A request for both methods, out of order and with a repetition. -/
def sampleRequest : Request :=
  .some [⟨⟨0x06000002⟩, 9⟩, ⟨⟨0x06000001⟩, 7⟩, ⟨⟨0x06000002⟩, 9⟩]

theorem answer_eq_fresh_sample :
    Archive.ofResource sampleResource = .ok sampleArchive
      ∧ (∀ k, k ∈ Request.all.keys sampleArchive ↔ k ∈ sampleRequest.keys sampleArchive)
      ∧ ∃ d, (ofResource sampleResource .default .strict).map (·.configure [.signatures .cil])
          = .ok d
        ∧ ((d.after [.some [⟨⟨0x06000002⟩, 9⟩], .all]).answer .all).result
          = .ok (d.survey (sampleRequest.keys sampleArchive))
        ∧ (d.answer sampleRequest).result
          = .ok (d.survey (sampleRequest.keys sampleArchive)) := by
  have hopen : Archive.ofResource sampleResource = .ok sampleArchive := by cbv
  have hkeys : ∀ k, k ∈ Request.all.keys sampleArchive ↔ k ∈ sampleRequest.keys sampleArchive := by
    intro k
    simp only [Request.keys, Archive.keys, sampleArchive, sampleRequest, List.map_cons,
      List.map_nil, List.mem_cons, List.not_mem_nil, or_false]
    tauto
  exact ⟨hopen, hkeys, answer_eq_fresh hopen .default .strict _ _ hkeys⟩

end Devirtualizer

end OpcodeRecovery
