import Mathlib.Tactic
import OpcodeRecovery.Proofs.Devirtualization.Report

/-!
What a run tells while it goes on is settled by what it reports in the end.

* `Mapper.events_map` and `Devirtualizer.events_run`: the events among the notices of a mapper, and
  among those of a run.
* `Told`: the events that tell of one key. What becomes of a method is told so, whether it is
  decoded, rejected or cannot be read (`Archive.told_fate`).
* `Devirtualizer.run_narrated`: a run tells of its keys one after the other, then of the methods of
  its report, and then of the mapping.
-/

namespace OpcodeRecovery

/-! ### Events among notices -/

namespace Progress

@[simp] lemma events_nil : events [] = [] := rfl

@[simp] lemma events_event_cons (e : Event) (ns : List Notice) :
    events (.event e :: ns) = e :: events ns := rfl

@[simp] lemma events_record_cons (r : Log.Record) (ns : List Notice) :
    events (.record r :: ns) = events ns := rfl

@[simp] lemma events_append (ns ns' : List Notice) : events (ns ++ ns') = events ns ++ events ns' :=
  List.filterMap_append

@[simp] lemma events_map_event (es : List Event) : events (es.map .event) = es := by
  rw [events, List.filterMap_map]
  exact List.filterMap_some

@[simp] lemma events_map_record (rs : List Log.Record) : events (rs.map .record) = [] := by
  rw [events, List.filterMap_map]
  exact List.filterMap_eq_nil_iff.mpr fun _ _ => rfl

end Progress

/-- An opcode is resolved or it is not. -/
lemma Mapping.resolvedCount_add_length_unresolved (m : Mapping) :
    m.resolvedCount + m.unresolved.length = m.size := by
  have hresolved : m.resolvedCount = m.verdicts.entries.countP fun e => e.2.isResolved := by
    rw [resolvedCount, resolved, List.length_filterMap_eq_countP]
    simp only [Option.isSome_map, Verdict.isResolved]
  rw [hresolved, unresolved, ← List.countP_eq_length_filter, size, Ledger.size,
    List.length_eq_countP_add_countP fun e : UInt8 × Verdict => e.2.isResolved]
  simp

/-- A mapper tells of each method, and then of the mapping. -/
lemma Mapper.events_map (m : Mapper) (methods : List Method) :
    Progress.events (m.map methods).2
      = methods.map (fun x => .profiled x.key x.instructions.size)
        ++ [.complete (m.map methods).1.resolvedCount (m.map methods).1.unresolved.length] := by
  have hmethods : methods.map (fun x => Progress.Notice.event (.profiled x.key x.instructions.size))
      = (methods.map fun x => .profiled x.key x.instructions.size).map .event :=
    List.map_map.symm
  have hwarnings (texts : List String) :
      texts.map (fun text => Progress.Notice.record ⟨.warn, text⟩)
        = (texts.map fun text => ⟨.warn, text⟩).map .record :=
    List.map_map.symm
  simp only [Mapper.map, hmethods, hwarnings, Progress.events_append, Progress.events_map_event,
    Progress.events_map_record, Progress.events_record_cons, Progress.events_event_cons,
    Progress.events_nil, List.append_nil]

/-! ### One key -/

/-- The events that tell of a key: its bytes were read, if they could be, and then its method was
decoded, or it failed, in the words that stand among the failures. -/
inductive Told (archive : Archive) (table : ShapeTable) (failures : List (MethodKey × String))
    (key : MethodKey) : List Progress.Event → Prop where
  | decoded {stream : Stream} {m : Method} (hextract : archive.extract key = .ok stream)
      (hdecode : decodeMethod table stream = .ok m) :
      Told archive table failures key
        [.extracted key stream.data.length, .disassembled key m.instructions.size]
  | rejected {stream : Stream} {e : Error} {text : String}
      (hextract : archive.extract key = .ok stream) (hdecode : decodeMethod table stream = .error e)
      (hfailure : (key, text) ∈ failures) :
      Told archive table failures key [.extracted key stream.data.length, .failed key text]
  | unreadable {e : Error} {text : String} (hextract : archive.extract key = .error e)
      (hfailure : (key, text) ∈ failures) :
      Told archive table failures key [.failed key text]

/-- What becomes of a method is told in events, if its failure stands among the failures. -/
lemma Archive.told_fate {a : Archive} {table : ShapeTable} {failures : List (MethodKey × String)}
    {key : MethodKey} (h : ∀ f, (a.fate table key).failure? = some f → f ∈ failures) :
    Told a table failures key (a.fate table key).events := by
  rw [fate] at h ⊢
  cases hextract : a.extract key with
  | error e =>
      obtain ⟨text, hfate⟩ := Fate.exists_ofError_eq key none e
      simp only [hextract, hfate] at h ⊢
      exact .unreadable hextract (h _ rfl)
  | ok stream =>
      simp only [hextract] at h ⊢
      cases hdecode : decodeMethod table stream with
      | ok m =>
          obtain rfl : m.key = key := (key_of_decodeMethod hdecode).trans (key_of_extract hextract)
          exact .decoded hextract hdecode
      | error e =>
          obtain ⟨text, hfate⟩ := Fate.exists_ofError_eq key (some stream.data.length) e
          simp only [hdecode, hfate] at h ⊢
          exact .rejected hextract hdecode (h _ rfl)

/-! ### Runs -/

namespace Devirtualizer

variable {resource : Resource} {table : ShapeTable} {config : RunConfig} {d : Devirtualizer}

/-- A run tells of its keys, then of the methods of the survey, and then of the mapping. -/
lemma events_run (hd : d.Genuine) (keys : List MethodKey) :
    Progress.events (d.run keys).notices
      = ((Ledger.distinct keys).map fun k => (d.archive.fate d.cache.table k).events).flatten
        ++ (d.survey keys).methods.map (fun m => .profiled m.key m.instructions.size)
        ++ [.complete (d.survey keys).mapping.resolvedCount
          (d.survey keys).mapping.unresolved.length] := by
  have hfates := (hd.processAll d.config.verify (Ledger.distinct keys)).1
  rw [run, survey]
  simp only [hfates, Mapper.events_map, Progress.events_append, Progress.events_map_event,
    Progress.events_map_record, Progress.events_record_cons, Progress.events_nil, List.append_nil,
    List.nil_append, List.append_assoc, List.flatMap_def, List.map_map, Function.comp_def]

/-- **What is told of a run is settled by its report**: however a devirtualizer was configured and
run since it was opened on a resource, a run ends with a report that accounts for its keys. An
observer is told, in this order, of each key that was asked for, once and in ascending order, then
of each method of the report, which ascend as well, and then of the mapping, whose opcodes are
resolved or unresolved. -/
theorem run_narrated (hd : Session resource table config d) (keys : List MethodKey) :
    ∃ archive report, Archive.ofResource resource = .ok archive
      ∧ (d.run keys).result = .ok report ∧ report.Accounts archive table keys
      ∧ ∃ order told, order.Pairwise (fun a b => rank a < rank b) ∧ (∀ k, k ∈ order ↔ k ∈ keys)
        ∧ List.Forall₂ (Told archive table report.failures) order told
        ∧ Progress.Observer.recorder.recorded (d.run keys).notices
          = told.flatten
            ++ report.methods.map (fun m => .profiled m.key m.instructions.size)
            ++ [.complete report.mapping.resolvedCount report.mapping.unresolved.length]
        ∧ report.mapping.resolvedCount + report.mapping.unresolved.length
          = report.mapping.size := by
  obtain ⟨harchive, rfl, hgenuine, hexpected⟩ := hd.kept
  refine ⟨d.archive, d.survey keys, harchive, result_run hgenuine keys,
    survey_accounts hexpected keys, Ledger.distinct keys, _, Ledger.pairwise_distinct keys,
    fun k => Ledger.mem_distinct, ?_, events_run hgenuine keys,
    Mapping.resolvedCount_add_length_unresolved _⟩
  rw [List.forall₂_map_right_iff, List.forall₂_same]
  exact fun k hk => Archive.told_fate fun f => failure_mem_survey hk

/-- In the second of two runs, what was decoded and what was rejected comes from the cache. -/
theorem run_narrated_sample :
    Session sampleResource .default .strict (sample.run sampleKeys).next
      ∧ ∃ archive report, Archive.ofResource sampleResource = .ok archive
        ∧ ((sample.run sampleKeys).next.run sampleKeys).result = .ok report
        ∧ report.Accounts archive .default sampleKeys
        ∧ ∃ order told, order.Pairwise (fun a b => rank a < rank b)
          ∧ (∀ k, k ∈ order ↔ k ∈ sampleKeys)
          ∧ List.Forall₂ (Told archive .default report.failures) order told
          ∧ Progress.Observer.recorder.recorded
              ((sample.run sampleKeys).next.run sampleKeys).notices
            = told.flatten
              ++ report.methods.map (fun m => .profiled m.key m.instructions.size)
              ++ [.complete report.mapping.resolvedCount report.mapping.unresolved.length]
          ∧ report.mapping.resolvedCount + report.mapping.unresolved.length
            = report.mapping.size :=
  ⟨session_sample.ran sampleKeys, run_narrated (session_sample.ran sampleKeys) sampleKeys⟩

end Devirtualizer

end OpcodeRecovery
