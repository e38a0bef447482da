import Mathlib.Tactic
import OpcodeRecovery.Proofs.Code.Bookkeeping

/-!
The order of requests does not show in a cache.

* `Cache.get?_after_requests`: of all calls for a key the first one decides what is kept.
* `Cache.Balanced.eq`: with its books in order, a cache is determined by its table and its slots.
* `Cache.order_independence`: calls of which those for one key have one stream can be made in any
  order, and every method is what its stream is decoded to on its own.
-/

namespace OpcodeRecovery

namespace Cache

variable {table : ShapeTable} {xs ys : List Call} {x : Call} {key : MethodKey}

/-! ### The first call decides -/

/-- Of all calls for a key the first one decides what is kept. -/
lemma get?_after_requests (table : ShapeTable) (xs : List Call) (key : MethodKey) :
    ((Cache.empty table).after (xs.map .request)).slots.get? key
      = (xs.find? (·.key == key)).map (·.slot table) := by
  induction xs using List.reverseRecOn generalizing key with
  | nil => rfl
  | append_singleton xs x ih =>
      rw [List.map_append, after_append, List.find?_append, List.find?_singleton]
      have htable : ((Cache.empty table).after (xs.map .request)).table = table :=
        table_after (.empty table) (xs.map .request)
      have hcases := (balanced_after table (xs.map .request)).request_cases x
      generalize (Cache.empty table).after (xs.map .request) = c at ih htable hcases ⊢
      have hafter : c.after ([x].map .request) = (c.request x.key x.stream).1 := rfl
      rw [hafter]
      rcases hcases with ⟨hnew, heq⟩ | ⟨hsome, heq⟩
      · -- no call so far was for this key
        have hnone : xs.find? (·.key == x.key) = none := by
          rwa [ih, Option.map_eq_none_iff] at hnew
        rw [heq, keep]
        by_cases hkey : key = x.key
        · subst hkey
          rw [Ledger.get?_insert_self, hnone, htable]
          simp
        · rw [Ledger.get?_insert_of_ne _ _ hkey, ih]
          simp [Ne.symm hkey]
      · obtain ⟨o, ho⟩ := Option.isSome_iff_exists.mp hsome
        obtain ⟨slot, hslot, -⟩ := Option.bind_eq_some_iff.mp ho
        rw [ih, Option.map_eq_some_iff] at hslot
        obtain ⟨y, hy, -⟩ := hslot
        rw [heq, ih]
        by_cases hkey : key = x.key
        · rw [hkey, hy, Option.some_or]
        · simp [Ne.symm hkey]

/-! ### Calls that agree -/

/-- Calls for one key hand in one stream. -/
def Consistent (xs : List Call) : Prop :=
  ∀ x ∈ xs, ∀ y ∈ xs, x.key = y.key → x.stream = y.stream

lemma Consistent.eq_of_key_eq (h : Consistent xs) {x y : Call} (hx : x ∈ xs) (hy : y ∈ xs)
    (hkey : x.key = y.key) : x = y := by
  have hstream := h x hx y hy hkey
  cases x
  cases y
  rw [Call.mk.injEq]
  exact ⟨hkey, hstream⟩

/-- If the calls for a key agree, each of them is as good as the first one. -/
lemma Consistent.find?_eq_some_iff (h : Consistent xs) :
    xs.find? (·.key == key) = some x ↔ x ∈ xs ∧ x.key = key :=
  find?_key_eq_some_iff fun _ hx _ hy => h.eq_of_key_eq hx hy

lemma Consistent.perm (h : Consistent xs) (hperm : xs.Perm ys) : Consistent ys :=
  fun x hx y hy => h x (hperm.mem_iff.mpr hx) y (hperm.mem_iff.mpr hy)

lemma Consistent.find?_eq_of_perm (h : Consistent xs) (hperm : xs.Perm ys) (key : MethodKey) :
    xs.find? (·.key == key) = ys.find? (·.key == key) := by
  refine Option.ext fun x => ?_
  rw [h.find?_eq_some_iff, (h.perm hperm).find?_eq_some_iff, hperm.mem_iff]

/-! ### Equal caches -/

/-- With its books in order, a cache is determined by its table and its slots. -/
lemma Balanced.eq {c d : Cache} (hc : Balanced c) (hd : Balanced d) (htable : c.table = d.table)
    (hslots : c.slots = d.slots) : c = d := by
  have hdecodes : c.decodes = d.decodes := by
    rw [hc.decodes, hd.decodes, size, hslots, ← size]
  have hcode : c.code = d.code := by
    rw [code, methods, hslots, ← methods, ← code]
  have hvotes : c.votes = d.votes := hc.tally.eq (hcode ▸ hd.tally)
  have hfailed : c.failed = d.failed := by
    rw [hc.noted.failed_eq, hd.noted.failed_eq]
    simp only [slotFailures, hslots]
  obtain ⟨t, s, f, v, n⟩ := c
  obtain ⟨t', s', f', v', n'⟩ := d
  obtain rfl : t = t' := htable
  obtain rfl : s = s' := hslots
  obtain rfl : f = f' := hfailed
  obtain rfl : v = v' := hvotes
  obtain rfl : n = n' := hdecodes
  rfl

lemma after_requests_eq_of_perm (table : ShapeTable) (hperm : xs.Perm ys) (h : Consistent xs) :
    (Cache.empty table).after (xs.map .request) = (Cache.empty table).after (ys.map .request) := by
  refine (balanced_after table _).eq (balanced_after table _) ?_ (Ledger.ext_get? fun key => ?_)
  · rw [table_after, table_after]
  · rw [get?_after_requests, get?_after_requests, h.find?_eq_of_perm hperm]

/-- A method that is kept is that of its own stream, decoded on its own. -/
lemma method?_after_requests (table : ShapeTable) (h : Consistent xs) (hx : x ∈ xs) {m : Method} :
    ((Cache.empty table).after (xs.map .request)).method? x.key = some m
      ↔ x.stream.key = x.key ∧ decodeMethod table x.stream = .ok m := by
  rw [method?_eq_some_iff, outcome?, get?_after_requests, h.find?_eq_some_iff.mpr ⟨hx, rfl⟩,
    Option.map_some, Option.bind_some, Call.slot, Option.some.injEq, kept_eq_ok_iff,
    decodeFor_eq_ok_iff]

/-- **The order of requests does not matter.** Calls of which those for one key hand in one stream
leave the same methods, failures and votes behind in whatever order they are made, the same number
of decodings, and the same promotions of any table. Every method is what its stream is decoded to
on its own, and every stream that can be decoded for its key has its method. -/
theorem order_independence (table : ShapeTable) (hperm : xs.Perm ys) (h : Consistent xs) :
    let c := (Cache.empty table).after (xs.map .request)
    let d := (Cache.empty table).after (ys.map .request)
    c.methods = d.methods ∧ c.failures = d.failures ∧ c.votes.toList = d.votes.toList
    ∧ c.decodes = d.decodes ∧ (∀ t, c.votes.promote t = d.votes.promote t)
    ∧ (∀ x ∈ xs, ∀ m, c.method? x.key = some m
        ↔ x.stream.key = x.key ∧ decodeMethod table x.stream = .ok m)
    ∧ ∀ m ∈ c.methods, ∃ x ∈ xs, x.key = m.key ∧ decodeMethod table x.stream = .ok m := by
  intro c d
  have heq : d = c := (after_requests_eq_of_perm table hperm h).symm
  rw [heq]
  refine ⟨rfl, rfl, rfl, rfl, fun t => rfl, fun x hx m => method?_after_requests table h hx,
    fun m hm => ?_⟩
  -- a method under a key comes from a call for that key
  have hm := ((balanced_after table _).method?_eq_some_iff_mem).mpr ⟨hm, rfl⟩
  obtain ⟨slot, hslot, -⟩ := Option.bind_eq_some_iff.mp hm
  rw [get?_after_requests, Option.map_eq_some_iff] at hslot
  obtain ⟨x, hfind, -⟩ := hslot
  obtain ⟨hx, hkey⟩ := h.find?_eq_some_iff.mp hfind
  rw [← hkey, method?_after_requests table h hx] at hm
  exact ⟨x, hx, hkey, hm.2⟩

/-- A method of one instruction. -/
def sampleGood : Call := ⟨⟨⟨0x06000001⟩, 7⟩, ⟨⟨⟨0x06000001⟩, 7⟩, [0x00, 0x2A]⟩⟩

/-- A stream that cannot be decoded. -/
def sampleBad : Call := ⟨⟨⟨0x06000003⟩, 1⟩, ⟨⟨⟨0x06000003⟩, 1⟩, []⟩⟩

theorem order_independence_sample :
    let c := (Cache.empty .default).after ([sampleGood, sampleBad, sampleGood].map .request)
    let d := (Cache.empty .default).after ([sampleBad, sampleGood, sampleGood].map .request)
    c.failures = d.failures ∧ c.votes.toList = d.votes.toList
      ∧ c.method? sampleGood.key
        = some (.ofParts sampleGood.key 1 [⟨0, 1, 0x2A, .none, .inferred⟩] [])
      ∧ c.method? sampleBad.key = none := by
  intro c d
  have hconsistent : Consistent [sampleGood, sampleBad, sampleGood] := by
    simp [Consistent, sampleGood, sampleBad]
  have hgood : decodeMethod .default sampleGood.stream
      = .ok (.ofParts sampleGood.key 1 [⟨0, 1, 0x2A, .none, .inferred⟩] []) := by decide +kernel
  have hbad : decodeMethod .default sampleBad.stream = .error (.format .emptyStream) := rfl
  obtain ⟨-, hfailures, hvotes, -, -, hmethod, -⟩ :=
    order_independence .default (.swap sampleBad sampleGood [sampleGood]) hconsistent
  refine ⟨hfailures, hvotes, (hmethod sampleGood (by simp) _).mpr ⟨rfl, hgood⟩,
    Option.eq_none_iff_forall_ne_some.mpr fun m hm => ?_⟩
  have hok := ((hmethod sampleBad (by simp) m).mp hm).2
  rw [hbad] at hok
  cases hok

end Cache

end OpcodeRecovery
