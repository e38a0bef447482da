import Mathlib.Tactic
import OpcodeRecovery.Proofs.Code.Cache
import OpcodeRecovery.Proofs.Code.Header
import OpcodeRecovery.Proofs.Code.Votes

/-!
The books of a cache, whatever it was asked before.

* `Cache.Query` is what a cache can be asked, `Cache.ask` what comes of it, and `Cache.after` the
  cache after a list of queries.
* `Cache.Balanced` is what every query keeps: each key has its result, methods stand under their
  own keys, as many streams were decoded as there are keys, the failures that are noted are those of
  the slots, and the votes count the instructions of the methods. The step is `Cache.Balanced.ask`,
  the run `Cache.balanced_after`.
* `Cache.books_balance` draws the consequences for what a cache shows.
-/

namespace OpcodeRecovery

/-- A decoded method has the key of its stream. -/
lemma key_of_decodeMethod {table : ShapeTable} {stream : Stream} {m : Method}
    (h : decodeMethod table stream = .ok m) : m.key = stream.key := by
  obtain ⟨code, regions, is, -, -, -, rfl⟩ := decodeMethod_eq_ok_iff.mp h
  rfl

/-- The words of the failure of a slot. -/
def Slot.failure? (s : Slot) : Option String :=
  match s.outcome with
  | some (.error text) => some text
  | _ => none

lemma Slot.failure?_eq_some_iff {s : Slot} {text : String} :
    s.failure? = some text ↔ s.outcome = some (.error text) := by
  rw [failure?]
  split <;> simp_all

namespace Cache

/-! ### Queries -/

/-- What a cache is asked: a request, or a question that only looks. -/
inductive Query where
  | request (x : Call)
  | verify (x : Call)
  | method (key : MethodKey)
  | methods
  | failures

/-- The key that a query is about. -/
def Query.key? : Query → Option MethodKey
  | request x | verify x => some x.key
  | method key => some key
  | methods | failures => none

/-- What a query returns. -/
inductive Response where
  | reply (r : Reply)
  | verdict (r : Except Error Unit)
  | method (m : Option Method)
  | methods (ms : List Method)
  | failures (fs : List (MethodKey × String))

/-- The response says that the cache was handed two different streams for a key, or found two
different results. -/
def Response.IsBreach : Response → Prop
  | reply r => ∃ key what, r.result = .error (.cacheInvariant key what)
  | verdict r => ∃ key what, r = .error (.cacheInvariant key what)
  | method _ | methods _ | failures _ => False

/-- Asks a cache. -/
def ask (c : Cache) : Query → Cache × Response
  | .request x => ((c.request x.key x.stream).1, .reply (c.request x.key x.stream).2)
  | .verify x => (c, .verdict (c.verify x.key x.stream))
  | .method key => (c, .method (c.method? key))
  | .methods => (c, .methods c.methods)
  | .failures => (c, .failures c.failures)

/-- The cache after some queries. -/
def after (c : Cache) (qs : List Query) : Cache := qs.foldl (fun c q => (c.ask q).1) c

lemma after_append (c : Cache) (qs qs' : List Query) :
    c.after (qs ++ qs') = (c.after qs).after qs' :=
  List.foldl_append

lemma after_request_of_new {c : Cache} {x : Call} (hnew : c.slots.get? x.key = none)
    (qs : List Query) : c.after (.request x :: qs) = (c.keep x).after qs := by
  have hask : (c.ask (.request x)).1 = c.keep x := request_fst_of_new hnew
  rw [after, List.foldl_cons, hask, ← after]

lemma table_ask (c : Cache) (q : Query) : (c.ask q).1.table = c.table := by
  cases q with
  | request x => exact table_request c x.key x.stream
  | verify x => rfl
  | method key => rfl
  | methods => rfl
  | failures => rfl

lemma table_after (c : Cache) (qs : List Query) : (c.after qs).table = c.table := by
  induction qs generalizing c with
  | nil => rfl
  | cons q qs ih => exact (ih (c.ask q).1).trans (table_ask c q)

/-! ### What is kept -/

/-- The instructions of all methods. -/
def code (c : Cache) : List Instruction := c.methods.flatMap (·.instructions.toList)

/-- The books are in order. -/
structure Balanced (c : Cache) : Prop where
  /-- Every key has its result. -/
  decided : ∀ {key slot}, c.slots.get? key = some slot → slot.outcome.isSome
  /-- Methods stand under their own keys. -/
  own : ∀ {key m}, c.method? key = some m → m.key = key
  decodes : c.decodes = c.size
  /-- The failures that are noted are those of the slots. -/
  noted : c.Noted
  tally : c.votes.Tally c.code

variable {c : Cache} {x : Call} {key : MethodKey} {m : Method}

lemma Balanced.empty (table : ShapeTable) : Balanced (.empty table) where
  decided h := by cases h
  own h := by cases h
  decodes := rfl
  noted := noted_empty table
  tally := .empty

lemma Balanced.outcome?_isSome (h : Balanced c) {slot : Slot}
    (hslot : c.slots.get? key = some slot) : (c.outcome? key).isSome := by
  rw [outcome?, hslot]
  exact h.decided hslot

/-- The values of a cache after the first call for a key. -/
lemma perm_values_keep (hnew : c.slots.get? x.key = none) :
    (c.keep x).slots.values.Perm (x.slot c.table :: c.slots.values) :=
  (Ledger.perm_entries_insert hnew _).map Prod.snd

lemma perm_methods_keep_ok (hnew : c.slots.get? x.key = none)
    (hdecode : decodeFor c.table x.key x.stream = .ok m) :
    (c.keep x).methods.Perm (c.methods ++ [m]) := by
  have hperm := (perm_values_keep hnew).filterMap Slot.method?
  rw [Call.slot, hdecode, List.filterMap_cons] at hperm
  exact hperm.trans (List.perm_append_singleton m c.methods).symm

lemma perm_methods_keep_error {e : Error} (hnew : c.slots.get? x.key = none)
    (hdecode : decodeFor c.table x.key x.stream = .error e) :
    (c.keep x).methods.Perm c.methods := by
  have hperm := (perm_values_keep hnew).filterMap Slot.method?
  rw [Call.slot, hdecode, List.filterMap_cons] at hperm
  exact hperm

lemma key_of_decodeFor {table : ShapeTable} {stream : Stream}
    (h : decodeFor table key stream = .ok m) : m.key = key := by
  obtain ⟨hkey, hdecode⟩ := decodeFor_eq_ok_iff.mp h
  exact (key_of_decodeMethod hdecode).trans hkey

/-- The first call for a key leaves the books in order. -/
lemma Balanced.keep (h : Balanced c) (hnew : c.slots.get? x.key = none) :
    Balanced (c.keep x) where
  decided hslot := by
    rcases Ledger.get?_insert_cases hslot with hold | ⟨-, rfl⟩
    · exact h.decided hold
    · rfl
  own {key m} hm := by
    rw [method?_eq_some_iff, outcome?_keep] at hm
    split_ifs at hm with hkey
    · rw [hkey]
      exact key_of_decodeFor (kept_eq_ok_iff.mp (Option.some.inj hm))
    · exact h.own (method?_eq_some_iff.mpr hm)
  decodes := by
    have hsize : (c.keep x).size = c.size + 1 := (Ledger.perm_entries_insert hnew _).length_eq
    rw [hsize, Cache.keep, h.decodes]
  noted := h.noted.keep hnew
  tally := by
    cases hdecode : decodeFor c.table x.key x.stream with
    | ok m =>
        have hvotes : (c.keep x).votes = recordVotes c.votes m := by
          rw [Cache.keep, hdecode]
        have hcode : (c.keep x).code.Perm (c.code ++ m.instructions.toList) := by
          have hperm := (perm_methods_keep_ok hnew hdecode).flatMap_right
            (·.instructions.toList)
          rwa [List.flatMap_append, List.flatMap_singleton] at hperm
        rw [hvotes]
        exact (h.tally.recordVotes m).perm hcode.symm
    | error e =>
        have hvotes : (c.keep x).votes = c.votes := by
          rw [Cache.keep, hdecode]
        rw [hvotes]
        exact h.tally.perm ((perm_methods_keep_error hnew hdecode).flatMap_right _).symm

/-- A request keeps the first result of its key, or changes nothing. -/
lemma Balanced.request_cases (h : Balanced c) (x : Call) :
    (c.slots.get? x.key = none ∧ (c.request x.key x.stream).1 = c.keep x)
      ∨ (c.outcome? x.key).isSome ∧ (c.request x.key x.stream).1 = c := by
  cases hslot : c.slots.get? x.key with
  | none => exact .inl ⟨rfl, request_fst_of_new hslot⟩
  | some slot =>
      have hsome := h.outcome?_isSome hslot
      obtain ⟨o, ho⟩ := Option.isSome_iff_exists.mp hsome
      exact .inr ⟨hsome, request_fst_of_kept ho⟩

/-- Every query leaves the books in order. -/
lemma Balanced.ask (h : Balanced c) (q : Query) : Balanced (c.ask q).1 := by
  cases q with
  | request x =>
      show Balanced (c.request x.key x.stream).1
      rcases h.request_cases x with ⟨hnew, heq⟩ | ⟨-, heq⟩
      · rw [heq]
        exact h.keep hnew
      · rwa [heq]
  | verify x => exact h
  | method key => exact h
  | methods => exact h
  | failures => exact h

lemma balanced_after (table : ShapeTable) (qs : List Query) :
    Balanced ((Cache.empty table).after qs) := by
  induction qs using List.reverseRecOn with
  | nil => exact .empty table
  | append_singleton qs q ih =>
      rw [after_append]
      exact ih.ask q

/-! ### What a cache shows -/

lemma methods_eq (c : Cache) : c.methods = c.slots.entries.filterMap (·.2.method?) := by
  rw [methods, Ledger.values, List.filterMap_map]
  rfl

lemma mem_methods_iff : m ∈ c.methods ↔ ∃ key, c.method? key = some m := by
  simp only [methods_eq, List.mem_filterMap, Prod.exists, Ledger.mem_entries_iff, method?,
    Option.bind_eq_some_iff]

/-- The failures of the slots, by ascending key. -/
def slotFailures (c : Cache) : Ledger MethodKey String where
  entries := c.slots.entries.filterMap fun e => e.2.failure?.map fun text => (e.1, text)
  ascending := by
    refine c.slots.ascending.filterMap _ fun e e' hlt f hf f' hf' => ?_
    obtain ⟨text, -, rfl⟩ := Option.map_eq_some_iff.mp hf
    obtain ⟨text', -, rfl⟩ := Option.map_eq_some_iff.mp hf'
    exact hlt

lemma get?_slotFailures {text : String} :
    c.slotFailures.get? key = some text ↔ c.outcome? key = some (.error text) := by
  rw [← Ledger.mem_entries_iff, slotFailures, List.mem_filterMap, outcome?,
    Option.bind_eq_some_iff]
  constructor
  · rintro ⟨⟨k, slot⟩, hmem, hfailure⟩
    obtain ⟨text', htext, heq⟩ := Option.map_eq_some_iff.mp hfailure
    obtain ⟨rfl, rfl⟩ := Prod.mk.inj heq
    exact ⟨slot, Ledger.mem_entries_iff.mp hmem, Slot.failure?_eq_some_iff.mp htext⟩
  · rintro ⟨slot, hslot, houtcome⟩
    refine ⟨(key, slot), Ledger.mem_entries_iff.mpr hslot, ?_⟩
    rw [Slot.failure?_eq_some_iff.mpr houtcome, Option.map_some]

/-- The list of failures that is kept beside the slots is the one that they give. -/
lemma Noted.failed_eq (h : c.Noted) : c.failed = c.slotFailures :=
  Ledger.ext_get? fun key => Option.ext fun text => by rw [h, get?_slotFailures]

/-- Each slot that has a result shows up once, as a method or as a failure. -/
lemma length_eq_of_decided {es : List (MethodKey × Slot)}
    (h : ∀ e ∈ es, e.2.outcome.isSome) :
    es.length = (es.filterMap (·.2.method?)).length
      + (es.filterMap fun e => e.2.failure?.map fun text => (e.1, text)).length := by
  induction es with
  | nil => rfl
  | cons e es ih =>
      have hrest := ih fun e' he' => h e' (List.mem_cons_of_mem e he')
      obtain ⟨key, fingerprint, outcome⟩ := e
      obtain ⟨o, rfl⟩ := Option.isSome_iff_exists.mp (h _ List.mem_cons_self)
      cases o with
      | ok m =>
          simp only [List.filterMap_cons, Slot.method?, Slot.failure?, Option.map_none,
            List.length_cons] at hrest ⊢
          omega
      | error text =>
          simp only [List.filterMap_cons, Slot.method?, Slot.failure?, Option.map_some,
            List.length_cons] at hrest ⊢
          omega

lemma Balanced.size_eq (h : Balanced c) : c.size = c.methods.length + c.failures.length := by
  rw [methods_eq, failures, h.noted.failed_eq]
  exact length_eq_of_decided fun e he => h.decided (Ledger.mem_entries_iff.mp he)

lemma Balanced.method?_eq_some_iff_mem (h : Balanced c) :
    c.method? key = some m ↔ m ∈ c.methods ∧ m.key = key := by
  rw [mem_methods_iff]
  constructor
  · intro hm
    exact ⟨⟨key, hm⟩, h.own hm⟩
  · rintro ⟨⟨key', hm⟩, rfl⟩
    rwa [h.own hm]

lemma Balanced.pairwise_methods (h : Balanced c) :
    (c.methods.map (·.key)).Pairwise fun a b => rank a < rank b := by
  have hown {e : MethodKey × Slot} {m : Method} (he : e ∈ c.slots.entries)
      (hm : e.2.method? = some m) : m.key = e.1 :=
    h.own (by rw [method?, Ledger.mem_entries_iff.mp he, Option.bind_some, hm])
  rw [methods_eq, List.pairwise_map]
  refine (List.Pairwise.and_mem.mp c.slots.ascending).filterMap _ fun e e' hlt m hm m' hm' => ?_
  rw [hown hlt.1 hm, hown hlt.2.1 hm']
  exact hlt.2.2

lemma pairwise_failures (c : Cache) :
    (c.failures.map (·.1)).Pairwise fun a b => rank a < rank b :=
  List.pairwise_map.mpr c.failed.ascending

/-- No key has both a method and a failure. -/
lemma Balanced.key_ne (h : Balanced c) {f : MethodKey × String} (hm : m ∈ c.methods)
    (hf : f ∈ c.failures) : m.key ≠ f.1 := by
  intro heq
  have hok := method?_eq_some_iff.mp (h.method?_eq_some_iff_mem.mpr ⟨hm, heq⟩)
  rw [h.noted.mem_failures_iff.mp hf] at hok
  cases hok

/-- A query that reports a breach, is about a key that has its result, or is no request, changes
nothing. -/
lemma Balanced.ask_fst_eq (h : Balanced c) {q : Query}
    (hq : (c.ask q).2.IsBreach ∨ (∃ key, q.key? = some key ∧ (c.outcome? key).isSome)
      ∨ ∀ x, q ≠ .request x) : (c.ask q).1 = c := by
  cases q with
  | request x =>
      rcases h.request_cases x with ⟨hnew, -⟩ | ⟨-, heq⟩
      · -- the key is new, so the stream was decoded, and no decoding ends in a breach
        exfalso
        rcases hq with ⟨key, what, hbreach⟩ | ⟨key, hkey, hsome⟩ | hno
        · rw [request_result_of_new hnew] at hbreach
          exact absurd (decodeFor_firsthand hbreach).1 (by simp [Error.isFatal])
        · obtain rfl := Option.some.inj hkey
          rw [outcome?, hnew] at hsome
          cases hsome
        · exact hno x rfl
      · exact heq
  | verify x => rfl
  | method key => rfl
  | methods => rfl
  | failures => rfl

/-- **The books of a cache balance**, after any queries with any keys and streams. As many streams
were decoded as there are keys, each of which has a method or a failure. Both are listed by
ascending key, they share no key, and a method is found under its own key. The votes are exactly
the numbers of instructions of the methods whose shape was inferred. A query that reports a breach,
one about a key that has its result, and one that is no request leave the cache as it is. -/
theorem books_balance (table : ShapeTable) (qs : List Query) :
    let c := (Cache.empty table).after qs
    c.size = c.decodes
    ∧ c.decodes = c.methods.length + c.failures.length
    ∧ (c.methods.map (·.key)).Pairwise (fun a b => rank a < rank b)
    ∧ (c.failures.map (·.1)).Pairwise (fun a b => rank a < rank b)
    ∧ (∀ m ∈ c.methods, ∀ f ∈ c.failures, m.key ≠ f.1)
    ∧ (∀ key m, c.method? key = some m ↔ m ∈ c.methods ∧ m.key = key)
    ∧ (∀ p n, (p, n) ∈ c.votes.toList ↔ n = inferredCount c.code p ∧ 0 < n)
    ∧ ∀ q, ((c.ask q).2.IsBreach ∨ (∃ key, q.key? = some key ∧ (c.outcome? key).isSome)
        ∨ ∀ x, q ≠ .request x) → (c.ask q).1 = c := by
  intro c
  have h : Balanced c := balanced_after table qs
  refine ⟨h.decodes.symm, h.decodes.trans h.size_eq, h.pairwise_methods, pairwise_failures c,
    fun m hm f hf => h.key_ne hm hf, fun key m => h.method?_eq_some_iff_mem, fun p n => ?_,
    fun q hq => h.ask_fst_eq hq⟩
  rw [ShapeVotes.toList, Ledger.mem_entries_iff]
  exact h.tally p n

/-- A method of one instruction, whose shape is inferred. -/
def sampleOwn : Call := ⟨⟨⟨0x06000001⟩, 7⟩, ⟨⟨⟨0x06000001⟩, 7⟩, [0x00, 0x2A]⟩⟩

/-- The same stream, handed in for another key. -/
def sampleForeign : Call := ⟨⟨⟨0x06000002⟩, 7⟩, ⟨⟨⟨0x06000001⟩, 7⟩, [0x00, 0x2A]⟩⟩

theorem books_balance_sample :
    let c := (Cache.empty .default).after [.request sampleOwn, .request sampleForeign]
    c.size = 2 ∧ c.votes.toList = [((0x2A, .none), 1)] ∧ inferredCount c.code (0x2A, .none) = 1
      ∧ (c.outcome? sampleForeign.key).isSome
      ∧ (c.ask (.request ⟨sampleForeign.key, sampleOwn.stream⟩)).1 = c := by
  intro c
  have hnew : ((Cache.empty .default).keep sampleOwn).slots.get? sampleForeign.key = none :=
    Ledger.get?_insert_of_ne _ _ (by decide)
  have hc : c = ((Cache.empty .default).keep sampleOwn).keep sampleForeign :=
    (after_request_of_new rfl _).trans (after_request_of_new hnew _)
  obtain ⟨hsize, -, -, -, -, -, hvotes, hframe⟩ :=
    books_balance .default [.request sampleOwn, .request sampleForeign]
  have hown : decodeFor .default sampleOwn.key sampleOwn.stream
      = .ok (.ofParts sampleOwn.key 1 [⟨0, 1, 0x2A, .none, .inferred⟩] []) := by decide +kernel
  have hforeign : decodeFor .default sampleForeign.key sampleForeign.stream
      = .error (.format (.foreignStream sampleOwn.key sampleForeign.key)) := rfl
  have hlist : c.votes.toList = [((0x2A, .none), 1)] := by
    simp only [hc, keep, Cache.empty, hown, hforeign]
    rfl
  have hdecided : (c.outcome? sampleForeign.key).isSome := by
    rw [hc, outcome?_keep, if_pos rfl]
    rfl
  refine ⟨?_, hlist, ?_, hdecided, hframe _ (.inr (.inl ⟨_, rfl, hdecided⟩))⟩
  · have hdecodes : c.decodes = 2 := by
      rw [hc]
      rfl
    exact hsize.trans hdecodes
  · exact ((hvotes _ 1).mp (by rw [hlist]; exact List.mem_singleton.mpr rfl)).1.symm

end Cache

end OpcodeRecovery
