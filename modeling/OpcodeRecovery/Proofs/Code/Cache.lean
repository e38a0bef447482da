import Mathlib.Tactic
import OpcodeRecovery.Code.Cache
import OpcodeRecovery.Proofs.Code.Faults
import OpcodeRecovery.Proofs.Ledger

/-!
What the steps of a request do to a cache, seen through two look-ups: the fingerprint that a key
is marked with (`Cache.mark?`), and the result that is kept for it (`Cache.outcome?`).

* `Cache.enroll` marks a key that has no mark, and touches no result.
* `Cache.settle` recalls the result of a key that has one (`Cache.settle_of_kept`). Otherwise it
  decodes, and the result is kept from then on (`Cache.outcome?_decode`); marks stay.
* `Cache.Noted` says that the failures which are noted beside the slots are those of the slots; both
  steps keep it (`Cache.Noted.enroll`, `Cache.Noted.decode`).
* `Cache.request_of_new` and `Cache.request_of_kept` put the steps together. `Cache.keep` is the
  cache after the first call for a key (`Cache.request_fst_of_new`); later calls change nothing
  (`Cache.request_fst_of_kept`).
* `Cache.decodeFor_firsthand`: a decoding that fails does so at first hand, so the two ways of being
  told of a failure can be told apart.
-/

namespace OpcodeRecovery

namespace Cache

/-- A call: a stream handed in for a key. -/
structure Call where
  key : MethodKey
  stream : Stream

/-- The fingerprint of the stream of a call. -/
def Call.mark (x : Call) : Bytes := fingerprint x.stream.data

/-- What a call is told whose stream is not the one that was handed in first. -/
def Call.refusal (x : Call) : Reply := ⟨.error (.cacheInvariant x.key .streamDiffers), []⟩

variable {c : Cache} {key : MethodKey} {stream : Stream} {mark : Bytes}

/-! ### Marks and results -/

/-- The fingerprint that a key is marked with. -/
def mark? (c : Cache) (key : MethodKey) : Option Bytes :=
  (c.slots.get? key).map (·.fingerprint)

/-- The result that is kept for a key. -/
def outcome? (c : Cache) (key : MethodKey) : Option Outcome :=
  (c.slots.get? key).bind (·.outcome)

/-- What is kept of a result: an error in words. -/
def kept : Except Error Method → Outcome
  | .ok m => .ok m
  | .error e => .error e.message

lemma kept_eq_ok_iff {r : Except Error Method} {m : Method} : kept r = .ok m ↔ r = .ok m := by
  cases r <;> simp [kept]

/-- A result that was kept, as it is returned later. -/
def recalled (key : MethodKey) : Outcome → Except Error Method
  | .ok m => .ok m
  | .error text => .error (.methodFailed key text)

lemma method?_eq_some_iff {m : Method} : c.method? key = some m ↔ c.outcome? key = some (.ok m) := by
  rw [method?, outcome?]
  cases c.slots.get? key with
  | none => simp
  | some slot =>
      simp only [Option.bind_some, Slot.method?]
      split <;> simp_all

/-- The failures that are noted are those whose results are kept. -/
def Noted (c : Cache) : Prop :=
  ∀ key text, c.failed.get? key = some text ↔ c.outcome? key = some (.error text)

lemma noted_empty (table : ShapeTable) : (empty table).Noted :=
  fun _ _ => iff_of_false (by simp [empty]) (by simp [empty, outcome?])

lemma Noted.mem_failures_iff (h : c.Noted) {text : String} :
    (key, text) ∈ c.failures ↔ c.outcome? key = some (.error text) :=
  Ledger.mem_entries_iff.trans (h key text)

/-! ### Enrolling -/

lemma enroll_of_mark {f : Bytes} (h : c.mark? key = some f) : (c.enroll key mark).1 = c := by
  obtain ⟨slot, hslot, -⟩ := Option.map_eq_some_iff.mp h
  rw [enroll, hslot]

/-- A key that has no mark gets one. -/
lemma mark?_enroll (c : Cache) (key : MethodKey) (mark : Bytes) (k : MethodKey) :
    (c.enroll key mark).1.mark? k
      = if k = key then some ((c.mark? key).getD mark) else c.mark? k := by
  rw [enroll, mark?, mark?, mark?]
  cases hslot : c.slots.get? key with
  | some slot =>
      split_ifs with hk
      · rw [hk, hslot]
        rfl
      · rfl
  | none =>
      split_ifs with hk
      · rw [hk, Ledger.get?_insert_self]
        rfl
      · rw [Ledger.get?_insert_of_ne _ _ hk]

lemma outcome?_enroll (c : Cache) (key : MethodKey) (mark : Bytes) (k : MethodKey) :
    (c.enroll key mark).1.outcome? k = c.outcome? k := by
  rw [enroll, outcome?, outcome?]
  cases hslot : c.slots.get? key with
  | some slot => rfl
  | none =>
      by_cases hk : k = key
      · rw [hk, Ledger.get?_insert_self, hslot]
        rfl
      · rw [Ledger.get?_insert_of_ne _ _ hk]

/-- The slot that a caller gets has the mark of its key. -/
lemma fingerprint_enroll (c : Cache) (key : MethodKey) (mark : Bytes) :
    (c.enroll key mark).2.fingerprint = (c.mark? key).getD mark := by
  rw [enroll, mark?]
  cases c.slots.get? key <;> rfl

lemma table_enroll (c : Cache) (key : MethodKey) (mark : Bytes) :
    (c.enroll key mark).1.table = c.table := by
  rw [enroll]
  cases c.slots.get? key <;> rfl

lemma failed_enroll (c : Cache) (key : MethodKey) (mark : Bytes) :
    (c.enroll key mark).1.failed = c.failed := by
  rw [enroll]
  cases c.slots.get? key <;> rfl

lemma Noted.enroll (h : c.Noted) (key : MethodKey) (mark : Bytes) : (c.enroll key mark).1.Noted := by
  intro k text
  rw [failed_enroll, outcome?_enroll]
  exact h k text

/-- A result that is kept is recalled. -/
lemma settle_of_kept {o : Outcome} (h : c.outcome? key = some o) :
    c.settle key stream = (c, ⟨recalled key o, []⟩) := by
  rw [settle, ← outcome?, h]
  cases o <;> rfl

lemma settle_of_open (h : c.outcome? key = none) :
    c.settle key stream = c.decode key stream := by
  rw [settle, ← outcome?, h]

lemma result_decode (c : Cache) (key : MethodKey) (stream : Stream) :
    (c.decode key stream).2.result = decodeFor c.table key stream := by
  rw [decode]
  split <;> simp_all

lemma slots_decode (c : Cache) (key : MethodKey) (stream : Stream) :
    (c.decode key stream).1.slots = (c.close key (kept (decodeFor c.table key stream))).slots := by
  rw [decode]
  split <;> simp_all [kept, close]

/-- After decoding, the result is kept. -/
lemma outcome?_decode (c : Cache) (key : MethodKey) (stream : Stream) (k : MethodKey) :
    (c.decode key stream).1.outcome? k
      = if k = key then some (kept (decodeFor c.table key stream)) else c.outcome? k := by
  rw [outcome?, slots_decode, close]
  split_ifs with hk
  · rw [hk, Ledger.get?_upsert_self]
    rfl
  · rw [Ledger.get?_upsert_of_ne _ _ hk]
    rfl

/-- Decoding does not touch a mark. -/
lemma mark?_decode {f : Bytes} (h : c.mark? key = some f) (stream : Stream) (k : MethodKey) :
    (c.decode key stream).1.mark? k = c.mark? k := by
  obtain ⟨slot, hslot, -⟩ := Option.map_eq_some_iff.mp h
  rw [mark?, slots_decode, close, mark?]
  by_cases hk : k = key
  · rw [hk, Ledger.get?_upsert_self, hslot]
    rfl
  · rw [Ledger.get?_upsert_of_ne _ _ hk]

lemma table_decode (c : Cache) (key : MethodKey) (stream : Stream) :
    (c.decode key stream).1.table = c.table := by
  rw [decode]
  split <;> rfl

/-- Decoding notes a failure, and nothing else. -/
lemma failed_decode (c : Cache) (key : MethodKey) (stream : Stream) :
    (c.decode key stream).1.failed = match decodeFor c.table key stream with
      | .ok _ => c.failed
      | .error e => c.failed.insert key e.message := by
  rw [decode]
  dsimp only
  cases decodeFor c.table key stream <;> rfl

/-- A failure is noted when it is kept. -/
lemma Noted.decode (h : c.Noted) (hopen : c.outcome? key = none) (stream : Stream) :
    (c.decode key stream).1.Noted := by
  intro k text
  rw [failed_decode, outcome?_decode]
  cases decodeFor c.table key stream with
  | ok m =>
      dsimp only
      split_ifs with hk
      · rw [h, hk, hopen]
        simp [kept]
      · exact h k text
  | error e =>
      dsimp only
      split_ifs with hk
      · rw [hk, Ledger.get?_insert_self]
        simp [kept]
      · rw [Ledger.get?_insert_of_ne _ _ hk]
        exact h k text

/-- A stream is decoded for its own key only. -/
lemma decodeFor_eq_ok_iff {table : ShapeTable} {m : Method} :
    decodeFor table key stream = .ok m ↔ stream.key = key ∧ decodeMethod table stream = .ok m := by
  rw [decodeFor]
  split_ifs with hkey
  · simp [hkey]
  · simp [hkey, reject_ne_ok]

/-- A decoding that fails does so at first hand. -/
lemma decodeFor_firsthand {table : ShapeTable} {e : Error}
    (h : decodeFor table key stream = .error e) : e.Firsthand := by
  rw [decodeFor] at h
  split_ifs at h
  · exact decodeMethod_firsthand h
  · obtain ⟨fault, rfl⟩ := Faulty.reject _ e h
    exact .format fault

/-! ### Whole requests -/

lemma outcome?_of_mark?_eq_none (h : c.mark? key = none) : c.outcome? key = none := by
  rw [outcome?, Option.map_eq_none_iff.mp h]
  rfl

/-- A first request decodes. -/
lemma request_of_new (h : c.mark? key = none) :
    c.request key stream
      = (c.enroll key (fingerprint stream.data)).1.decode key stream := by
  have haccepts : (c.enroll key (fingerprint stream.data)).2.accepts (fingerprint stream.data) := by
    simp [Slot.accepts, fingerprint_enroll, h]
  rw [request]
  simp only [haccepts, if_true]
  exact settle_of_open ((outcome?_enroll _ _ _ _).trans (outcome?_of_mark?_eq_none h))

/-- A later request with the same bytes recalls the result. -/
lemma request_of_kept {o : Outcome} (hmark : c.mark? key = some (fingerprint stream.data))
    (ho : c.outcome? key = some o) : c.request key stream = (c, ⟨recalled key o, []⟩) := by
  have haccepts : (c.enroll key (fingerprint stream.data)).2.accepts (fingerprint stream.data) := by
    simp [Slot.accepts, fingerprint_enroll, hmark]
  rw [request]
  simp only [haccepts, if_true, enroll_of_mark hmark]
  exact settle_of_kept ho

/-- A later request with other bytes is refused. -/
lemma request_of_differs {f : Bytes} (hmark : c.mark? key = some f)
    (hne : f ≠ fingerprint stream.data) :
    c.request key stream = (c, Call.refusal ⟨key, stream⟩) := by
  have haccepts :
      (c.enroll key (fingerprint stream.data)).2.accepts (fingerprint stream.data) = false := by
    simp [Slot.accepts, fingerprint_enroll, hmark, hne]
  rw [request]
  simp only [haccepts, Bool.false_eq_true, if_false, enroll_of_mark hmark]
  rfl

/-- A request for a key that has a result changes nothing. -/
lemma request_fst_of_kept {o : Outcome} (ho : c.outcome? key = some o) :
    (c.request key stream).1 = c := by
  obtain ⟨slot, hslot, -⟩ := Option.bind_eq_some_iff.mp ho
  have hmark : c.mark? key = some slot.fingerprint := by rw [mark?, hslot, Option.map_some]
  by_cases heq : slot.fingerprint = fingerprint stream.data
  · rw [heq] at hmark
    rw [request_of_kept hmark ho]
  · rw [request_of_differs hmark heq]

/-- What the first call for a key leaves in its slot. -/
def Call.slot (x : Call) (table : ShapeTable) : Slot :=
  ⟨x.mark, some (kept (decodeFor table x.key x.stream))⟩

/-- The cache after the first call for a key: the result is kept, it is noted if it is a failure, and
its inferred shapes are counted if there is a method. -/
def keep (c : Cache) (x : Call) : Cache where
  table := c.table
  slots := c.slots.insert x.key (x.slot c.table)
  failed :=
    match decodeFor c.table x.key x.stream with
    | .ok _ => c.failed
    | .error e => c.failed.insert x.key e.message
  votes :=
    match decodeFor c.table x.key x.stream with
    | .ok m => recordVotes c.votes m
    | .error _ => c.votes
  decodes := c.decodes + 1

lemma request_fst_of_new (h : c.slots.get? key = none) :
    (c.request key stream).1 = c.keep ⟨key, stream⟩ := by
  have hmark : c.mark? key = none := by rw [mark?, h, Option.map_none]
  rw [request_of_new hmark, enroll, h, decode, keep, Call.slot]
  dsimp only
  cases decodeFor c.table key stream with
  | ok m => simp only [close, Ledger.upsert_insert, Option.getD_some, kept, Call.mark]
  | error e => simp only [close, Ledger.upsert_insert, Option.getD_some, kept, Call.mark]

lemma Noted.keep (h : c.Noted) {x : Call} (hnew : c.slots.get? x.key = none) : (c.keep x).Noted := by
  have hmark : c.mark? x.key = none := by rw [mark?, hnew, Option.map_none]
  rw [← request_fst_of_new hnew, request_of_new hmark]
  refine (h.enroll x.key _).decode ?_ x.stream
  rw [outcome?_enroll, outcome?_of_mark?_eq_none hmark]

lemma request_result_of_new (h : c.slots.get? key = none) :
    (c.request key stream).2.result = decodeFor c.table key stream := by
  have hmark : c.mark? key = none := by rw [mark?, h, Option.map_none]
  rw [request_of_new hmark, result_decode, table_enroll]

lemma table_request (c : Cache) (key : MethodKey) (stream : Stream) :
    (c.request key stream).1.table = c.table := by
  rw [request]
  dsimp only
  split_ifs
  · rw [settle]
    split
    · exact table_enroll _ _ _
    · exact table_enroll _ _ _
    · rw [table_decode, table_enroll]
  · exact table_enroll _ _ _

lemma outcome?_keep (c : Cache) (x : Call) (k : MethodKey) :
    (c.keep x).outcome? k
      = if k = x.key then some (kept (decodeFor c.table x.key x.stream)) else c.outcome? k := by
  rw [outcome?, keep, outcome?]
  split_ifs with hk
  · rw [hk, Ledger.get?_insert_self]
    rfl
  · rw [Ledger.get?_insert_of_ne _ _ hk]

/-- A result that was kept and a fresh one agree exactly if the fresh one would be kept as that. -/
lemma agree_kept_iff {x y : Except Error Method} : agree (kept x) y = true ↔ kept x = kept y := by
  cases x <;> cases y <;> simp [agree, kept]

/-- A result that is the stream's own stands up to being decoded once more. -/
lemma verify_of_kept (h : c.outcome? key = some (kept (decodeMethod c.table stream))) :
    c.verify key stream = .ok () := by
  rw [verify, ← outcome?, h]
  exact if_pos (agree_kept_iff.mpr rfl)

end Cache

end OpcodeRecovery
