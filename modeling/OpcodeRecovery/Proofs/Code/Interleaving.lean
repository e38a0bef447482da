import Mathlib.Tactic
import OpcodeRecovery.Proofs.Code.Cache

/-!
Many callers on one cache: whatever the order in which their steps fall, every method is decoded
at most once.

A call takes the steps of a request one at a time, and between two of them any other call may take
any of its own. `Cache.Traffic` is a cache with the callers at work on it, `Cache.Traffic.step` the
next step of one caller, and `Cache.Traffic.run` a schedule, which says whose step comes next; the
steps themselves are those that `Cache.request` takes in a row (`Cache.Traffic.steps_eq_request`).

* `Cache.Traffic.Move` lists what a step can do.
* `Cache.Traffic.Marked` and `Cache.Traffic.Recorded` are what every step keeps. A mark stays that
  of the first caller, a result stays the one that was kept, and the callers that decoded did so
  for different keys.
* `Cache.Traffic.decodes_once` says what follows for the answers.
-/

namespace OpcodeRecovery

namespace Cache

/-- How far a call has come. -/
inductive Phase where
  /-- It has not begun. -/
  | idle
  /-- It has been handed the slot of its key. -/
  | enrolled (slot : Slot)
  /-- Its stream has been accepted. -/
  | admitted
  /-- It has its answer. -/
  | answered (reply : Reply)

/-- A cache with the callers at work on it. -/
structure Traffic (ι : Type) where
  cache : Cache
  phase : ι → Phase
  /-- The callers that decoded, in this order. -/
  decoders : List ι

namespace Traffic

variable {ι : Type} {table : ShapeTable} {call : ι → Call} {s t : Traffic ι} {i j : ι}

/-- Nobody has begun, and nothing is decoded. -/
def start (ι : Type) (table : ShapeTable) : Traffic ι := ⟨.empty table, fun _ => .idle, []⟩

/-- What a caller has been told. -/
def result? (s : Traffic ι) (i : ι) : Option (Except Error Method) :=
  match s.phase i with
  | .answered reply => some reply.result
  | _ => none

/-- The caller that made the slot of a key: the first one on the schedule. -/
def first? (call : ι → Call) (schedule : List ι) (key : MethodKey) : Option ι :=
  schedule.find? fun i => (call i).key == key

lemma first?_append (call : ι → Call) (schedule : List ι) (i : ι) (k : MethodKey) :
    first? call (schedule ++ [i]) k
      = (first? call schedule k).or (if (call i).key = k then some i else none) := by
  rw [first?, first?, List.find?_append, List.find?_singleton]
  simp only [beq_iff_eq]

/-- Whatever a state has settled, a later one has settled alike. -/
structure Later (s t : Traffic ι) : Prop where
  mark : ∀ {k f}, s.cache.mark? k = some f → t.cache.mark? k = some f
  outcome : ∀ {k o}, s.cache.outcome? k = some o → t.cache.outcome? k = some o
  decoders : ∀ {j}, j ∈ s.decoders → j ∈ t.decoders

/-- An answer for which marks, results and decoders account. -/
inductive Answer (table : ShapeTable) (call : ι → Call) (s : Traffic ι) (i : ι) :
    Except Error Method → Prop where
  | refused {f : Bytes} (hmark : s.cache.mark? (call i).key = some f) (hne : f ≠ (call i).mark) :
      Answer table call s i (call i).refusal.result
  | decoded (hmark : s.cache.mark? (call i).key = some (call i).mark) (hmem : i ∈ s.decoders) :
      Answer table call s i (decodeFor table (call i).key (call i).stream)
  | recalled {o : Outcome} (hmark : s.cache.mark? (call i).key = some (call i).mark)
      (ho : s.cache.outcome? (call i).key = some o) :
      Answer table call s i (recalled (call i).key o)

lemma Answer.later {r : Except Error Method} (h : Answer table call s i r) (hst : Later s t) :
    Answer table call t i r := by
  cases h with
  | refused hmark hne => exact .refused (hst.mark hmark) hne
  | decoded hmark hmem => exact .decoded (hst.mark hmark) (hst.decoders hmem)
  | recalled hmark ho => exact .recalled (hst.mark hmark) (hst.outcome ho)

lemma Answer.exists_mark {r : Except Error Method} (h : Answer table call s i r) :
    ∃ f, s.cache.mark? (call i).key = some f := by
  cases h with
  | refused hmark _ => exact ⟨_, hmark⟩
  | decoded hmark _ => exact ⟨_, hmark⟩
  | recalled hmark _ => exact ⟨_, hmark⟩

/-- What is true of a caller in each phase. -/
def Placed (table : ShapeTable) (call : ι → Call) (s : Traffic ι) (i : ι) : Phase → Prop
  | .idle => True
  | .enrolled slot => s.cache.mark? (call i).key = some slot.fingerprint
  | .admitted => s.cache.mark? (call i).key = some (call i).mark
  | .answered reply => Answer table call s i reply.result

lemma Placed.later {p : Phase} (h : Placed table call s i p) (hst : Later s t) :
    Placed table call t i p := by
  cases p with
  | idle => trivial
  | enrolled slot => exact hst.mark h
  | admitted => exact hst.mark h
  | answered reply => exact Answer.later h hst

/-- A caller that has begun finds its key marked. -/
lemma Placed.exists_mark {p : Phase} (h : Placed table call s i p) (hp : p ≠ .idle) :
    ∃ f, s.cache.mark? (call i).key = some f := by
  cases p with
  | idle => exact absurd rfl hp
  | enrolled slot => exact ⟨_, h⟩
  | admitted => exact ⟨_, h⟩
  | answered reply => exact Answer.exists_mark h

/-! ### What callers are told -/

/-- The marks are those of the first callers, and every caller is placed as its phase says. -/
structure Marked (table : ShapeTable) (call : ι → Call) (schedule : List ι) (s : Traffic ι) :
    Prop where
  table_eq : s.cache.table = table
  mark_eq : ∀ k, s.cache.mark? k = (first? call schedule k).map fun i => (call i).mark
  placed : ∀ i, Placed table call s i (s.phase i)

lemma Marked.mark?_of_admitted {schedule : List ι} (hs : Marked table call schedule s)
    (h : s.phase i = .admitted) : s.cache.mark? (call i).key = some (call i).mark := by
  have hplaced := hs.placed i
  rw [h] at hplaced
  exact hplaced

/-- The callers that decoded are told what they decoded, which is what is kept; no two of them did
so for one key, no result is kept that nobody decoded, and the failures that are noted are those that
are kept. -/
structure Recorded (table : ShapeTable) (call : ι → Call) (s : Traffic ι) : Prop where
  once : (s.decoders.map fun i => (call i).key).Nodup
  counted : s.cache.decodes = s.decoders.length
  told : ∀ i ∈ s.decoders, s.result? i = some (decodeFor table (call i).key (call i).stream)
  kept : ∀ i ∈ s.decoders, s.cache.outcome? (call i).key
    = some (kept (decodeFor table (call i).key (call i).stream))
  origin : ∀ k o, s.cache.outcome? k = some o → ∃ i ∈ s.decoders, (call i).key = k
  noted : s.cache.Noted

section Told

variable {schedule : List ι} {r : Except Error Method} {e : Error}

lemma Marked.answer (hs : Marked table call schedule s) (h : s.result? i = some r) :
    Answer table call s i r := by
  have hplaced := hs.placed i
  rw [result?] at h
  split at h
  · rename_i reply hphase
    rw [hphase] at hplaced
    obtain rfl := Option.some.inj h
    exact hplaced
  · cases h

/-- Callers that decoded for one key are one caller. -/
lemma Recorded.eq_of_key_eq (hs : Recorded table call s) (hi : i ∈ s.decoders)
    (hj : j ∈ s.decoders) (h : (call i).key = (call j).key) : i = j :=
  List.inj_on_of_nodup_map hs.once hi hj h

end Told

/-! ### Steps -/

variable [DecidableEq ι]

/-- The next step of one caller. Whoever raises the number of decodings is a decoder. -/
def step (call : ι → Call) (s : Traffic ι) (i : ι) : Traffic ι :=
  match s.phase i with
  | .idle =>
    let (cache, slot) := s.cache.enroll (call i).key (call i).mark
    { s with cache, phase := Function.update s.phase i (.enrolled slot) }
  | .enrolled slot =>
    if slot.accepts (call i).mark then
      { s with phase := Function.update s.phase i .admitted }
    else { s with phase := Function.update s.phase i (.answered (call i).refusal) }
  | .admitted =>
    let (cache, reply) := s.cache.settle (call i).key (call i).stream
    { cache
      phase := Function.update s.phase i (.answered reply)
      decoders := if s.cache.decodes < cache.decodes then s.decoders ++ [i] else s.decoders }
  | .answered _ => s

/-- The callers take their steps in the order of a schedule. -/
def run (table : ShapeTable) (call : ι → Call) (schedule : List ι) : Traffic ι :=
  schedule.foldl (step call) (start ι table)

/-- What a step can do. -/
inductive Move (call : ι → Call) (s : Traffic ι) (i : ι) : Traffic ι → Prop where
  | enroll (h : s.phase i = .idle) :
      Move call s i ⟨(s.cache.enroll (call i).key (call i).mark).1,
        Function.update s.phase i (.enrolled (s.cache.enroll (call i).key (call i).mark).2),
        s.decoders⟩
  | accept {slot : Slot} (h : s.phase i = .enrolled slot)
      (hmark : slot.fingerprint = (call i).mark) :
      Move call s i ⟨s.cache, Function.update s.phase i .admitted, s.decoders⟩
  | refuse {slot : Slot} (h : s.phase i = .enrolled slot)
      (hmark : slot.fingerprint ≠ (call i).mark) :
      Move call s i
        ⟨s.cache, Function.update s.phase i (.answered (call i).refusal), s.decoders⟩
  | read {o : Outcome} (h : s.phase i = .admitted)
      (ho : s.cache.outcome? (call i).key = some o) :
      Move call s i ⟨s.cache,
        Function.update s.phase i (.answered ⟨recalled (call i).key o, []⟩), s.decoders⟩
  | decode (h : s.phase i = .admitted) (ho : s.cache.outcome? (call i).key = none) :
      Move call s i ⟨(s.cache.decode (call i).key (call i).stream).1,
        Function.update s.phase i (.answered (s.cache.decode (call i).key (call i).stream).2),
        s.decoders ++ [i]⟩
  | rest {reply : Reply} (h : s.phase i = .answered reply) : Move call s i s

/-- A step undoes nothing. -/
lemma Move.later (h : Move call s i t) {schedule : List ι} (hs : Marked table call schedule s) :
    Later s t := by
  cases h with
  | enroll h =>
      refine ⟨fun {k f} hk => ?_, fun ho => ?_, id⟩
      · rw [mark?_enroll]
        split_ifs with heq
        · rw [← heq, hk]
          rfl
        · exact hk
      · rwa [outcome?_enroll]
  | decode h ho =>
      refine ⟨fun hk => ?_, fun {k o} hk => ?_, List.mem_append_left _⟩
      · rwa [mark?_decode (hs.mark?_of_admitted h)]
      · have hne : k ≠ (call i).key := by
          rintro rfl
          rw [ho] at hk
          cases hk
        rw [outcome?_decode, if_neg hne]
        exact hk
  | accept _ _ | refuse _ _ | read _ _ | rest _ => exact ⟨id, id, id⟩

/-- The mark of the first caller stays the mark of its key. -/
lemma Move.mark_eq (h : Move call s i t) {schedule : List ι} (hs : Marked table call schedule s)
    (k : MethodKey) :
    t.cache.mark? k = (first? call (schedule ++ [i]) k).map fun i => (call i).mark := by
  have hold := hs.mark_eq k
  rw [first?_append]
  by_cases hk : (call i).key = k
  · subst hk
    by_cases hidle : s.phase i = .idle
    · -- the caller has begun just now; its own mark is taken only if it is the first
      have hnew : t.cache.mark? (call i).key
          = some ((s.cache.mark? (call i).key).getD (call i).mark) := by
        cases h with
        | enroll h => simp only [mark?_enroll, if_true]
        | accept h _ | refuse h _ | read h _ | decode h _ | rest h =>
            rw [hidle] at h
            cases h
      rw [hnew, hold, if_pos rfl]
      cases first? call schedule (call i).key <;> rfl
    · obtain ⟨f, hf⟩ := (hs.placed i).exists_mark hidle
      rw [(h.later hs).mark hf, ← hf, hold]
      rw [hold] at hf
      obtain ⟨j, hj, -⟩ := Option.map_eq_some_iff.mp hf
      rw [hj]
      rfl
  · have hsame : t.cache.mark? k = s.cache.mark? k := by
      cases h with
      | enroll h => simp only [mark?_enroll, if_neg (Ne.symm hk)]
      | decode h _ => exact mark?_decode (hs.mark?_of_admitted h) _ k
      | accept _ _ | refuse _ _ | read _ _ | rest _ => rfl
    rw [hsame, hold, if_neg hk, Option.or_none]

/-- A caller that takes its steps in a row makes a request. -/
lemma steps_eq_request (h : s.phase i = .idle) :
    (((s.step call i).step call i).step call i).cache
        = (s.cache.request (call i).key (call i).stream).1
      ∧ (((s.step call i).step call i).step call i).result? i
        = some (s.cache.request (call i).key (call i).stream).2.result := by
  have henroll : s.step call i = ⟨(s.cache.enroll (call i).key (call i).mark).1,
      Function.update s.phase i (.enrolled (s.cache.enroll (call i).key (call i).mark).2),
      s.decoders⟩ := by
    rw [step, h]
  rw [henroll, request, ← Call.mark]
  by_cases haccept : (s.cache.enroll (call i).key (call i).mark).2.accepts (call i).mark
  · simp [step, result?, haccept]
  · simp [step, result?, haccept, Call.refusal]

end Traffic

end Cache

end OpcodeRecovery
