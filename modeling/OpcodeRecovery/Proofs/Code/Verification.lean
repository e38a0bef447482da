import Mathlib.Tactic
import OpcodeRecovery.Proofs.Code.Order

/-!
What a cache finds when it decodes a stream once more.

A request decodes the stream for a key, and refuses one that is stored under another; verifying
decodes the stream as it is, and compares whole methods, their keys included. Requests tell streams
apart by their bytes alone. So the two agree only where keys do.

* `Cache.get?_after`: after any queries, the first request for a key decides what is kept.
* `decodeMethod_rekey`: the key of a stream shows in its method and nowhere else.
* `StreamFault.message_ne`: no failure to decode reads like the refusal of a stream of another key.
* `Cache.verify_eq_ok_iff`: a stream that was accepted for a key is verified exactly if the stream
  that was first handed in for the key is its own, and so is this one, unless it is malformed.
-/

namespace OpcodeRecovery

variable {table : ShapeTable}

/-! ### Wordings -/

/-- The first letter of a text. -/
def initial? (s : String) : Option Char := s.toList.head?

lemma initial?_append {s : String} {c : Char} (h : initial? s = some c) (t : String) :
    initial? (s ++ t) = some c := by
  rw [initial?, String.toList_append, List.head?_append, ← initial?, h, Option.some_or]

/-- The wording of a number starts with a digit. -/
lemma exists_initial?_toString (n : ℕ) :
    ∃ c : Char, c.isDigit = true ∧ initial? (toString n) = some c := by
  obtain ⟨c, rest, hdigits⟩ := List.exists_cons_of_ne_nil (Nat.toDigits_ne_nil (n := n) (b := 10))
  have hmem : c ∈ Nat.toDigits 10 n := hdigits ▸ List.mem_cons_self
  have hrepr : (toString n).toList = Nat.toDigits 10 n := Nat.toList_repr
  refine ⟨c, Nat.isDigit_of_mem_toDigits (by decide) (by decide) hmem, ?_⟩
  rw [initial?, hrepr, hdigits]
  rfl

/-- The wording of a fault in a stream starts with another letter than that of the fault of a
stream of another key. -/
lemma StreamFault.exists_initial? {fault : Fault} (h : StreamFault (.format fault)) :
    ∃ c, c ≠ 'S' ∧ initial? fault.message = some c := by
  cases h with
  | code h =>
      cases h with
      | read h =>
          cases h with
          | overrun =>
              exact ⟨'O', by decide,
                initial?_append (initial?_append (initial?_append (initial?_append rfl _) _) _) _⟩
          | outside h =>
              obtain ⟨t, rfl⟩ : ∃ t, fault = .targetOutside t _ _ _ :=
                h.imp fun t ht => Error.format.inj ht
              exact ⟨'B', by decide, initial?_append (initial?_append (initial?_append
                (initial?_append (initial?_append (initial?_append rfl _) _) _) _) _) _⟩
      | inside =>
          exact ⟨'B', by decide, initial?_append (initial?_append (initial?_append
            (initial?_append (initial?_append (initial?_append rfl _) _) _) _) _) _⟩
  | empty => exact ⟨'E', by decide, rfl⟩
  | flags => exact ⟨'U', by decide, initial?_append rfl _⟩
  | overflow => exact ⟨'7', by decide, initial?_append rfl _⟩
  | longTable count size =>
      obtain ⟨c, hdigit, hinitial⟩ := exists_initial?_toString count
      refine ⟨c, ?_, initial?_append (initial?_append (initial?_append hinitial _) _) _⟩
      rintro rfl
      exact absurd hdigit (by decide)
  | regionKind => exact ⟨'U', by decide, initial?_append rfl _⟩
  | regionOutside =>
      exact ⟨'E', by decide, initial?_append (initial?_append (initial?_append
        (initial?_append (initial?_append (initial?_append rfl _) _) _) _) _) _⟩

/-- A stream that cannot be decoded fails in other words than one that is stored under another
key. -/
lemma StreamFault.message_ne {e : Error} (h : StreamFault e) (own requested : MethodKey) :
    e.message ≠ (Error.format (.foreignStream own requested)).message := by
  intro heq
  obtain rfl | ⟨fault, rfl⟩ : e = .outOfBounds ∨ ∃ fault, e = .format fault := by
    cases h with
    | code h => exact .inr h.exists_fault
    | truncated => exact .inl rfl
    | empty | flags | overflow | longTable | regionKind | regionOutside => exact .inr ⟨_, rfl⟩
  · -- one text starts with `O`, the other one with `F`
    have hinitial : initial? (Error.format (.foreignStream own requested)).message = some 'F' :=
      initial?_append rfl _
    rw [← heq] at hinitial
    exact absurd hinitial (by decide)
  · obtain ⟨c, hc, hinitial⟩ := h.exists_initial?
    have hmessage : fault.message = (Fault.foreignStream own requested).message :=
      (String.append_right_inj "Format - ").mp heq
    have hforeign : initial? (Fault.foreignStream own requested).message = some 'S' :=
      initial?_append (initial?_append (initial?_append rfl _) _) _
    rw [hmessage, hforeign] at hinitial
    exact hc (Option.some.inj hinitial).symm

/-! ### Keys and decoding -/

/-- The key of a stream shows in its method and nowhere else. -/
lemma decodeMethod_rekey (table : ShapeTable) (key key' : MethodKey) (data : Bytes) :
    decodeMethod table ⟨key', data⟩
      = (decodeMethod table ⟨key, data⟩).map fun m => { m with key := key' } := by
  rw [decodeMethod, decodeMethod]
  cases Decode.splitStream data with
  | error e => rfl
  | ok parts =>
      simp only [ok_bind]
      cases parts.1.mapM (Decode.checkRegion parts.2.length) with
      | error e => rfl
      | ok regions =>
          simp only [ok_bind]
          cases decodeCode table parts.2 <;> rfl

namespace Cache

variable {c : Cache} {key : MethodKey}

/-- The same bytes under two keys come to the same exactly if the keys are the same, or the bytes
are malformed. -/
lemma kept_decodeMethod_eq_iff {s t : Stream} (hdata : s.data = t.data) :
    kept (decodeMethod table s) = kept (decodeMethod table t)
      ↔ s.key = t.key ∨ ∃ e, decodeMethod table t = .error e := by
  have hrekey := decodeMethod_rekey table t.key s.key t.data
  have hs : (⟨s.key, t.data⟩ : Stream) = s := by rw [← hdata]
  rw [hs] at hrekey
  cases hdecode : decodeMethod table t with
  | error e =>
      rw [hdecode] at hrekey
      rw [hrekey]
      exact iff_of_true rfl (.inr ⟨e, rfl⟩)
  | ok m =>
      rw [hdecode] at hrekey
      rw [hrekey, ← key_of_decodeMethod hdecode]
      simp only [Except.map, kept, Except.ok.injEq, reduceCtorEq, exists_false, or_false]
      constructor
      · intro hm
        exact congrArg Method.key hm
      · intro hkey
        rw [hkey]

/-! ### After any queries -/

/-- The call of a request. -/
def Query.call? : Query → Option Call
  | request x => some x
  | _ => none

/-- The calls of some queries. -/
def calls (qs : List Query) : List Call := qs.filterMap Query.call?

/-- A question that only looks can be left out. -/
lemma after_eq_after_calls (c : Cache) (qs : List Query) :
    c.after qs = c.after ((calls qs).map .request) := by
  induction qs generalizing c with
  | nil => rfl
  | cons q qs ih =>
      cases q with
      | request x => exact ih _
      | verify x => exact ih c
      | method key => exact ih c
      | methods => exact ih c
      | failures => exact ih c

/-- After any queries, the first request for a key decides what is kept. -/
lemma get?_after (table : ShapeTable) (qs : List Query) (key : MethodKey) :
    ((Cache.empty table).after qs).slots.get? key
      = ((calls qs).find? (·.key == key)).map (·.slot table) := by
  rw [after_eq_after_calls, get?_after_requests]

/-- What is kept of a stream for a key is what the stream of some key comes to, exactly if the
stream is the key's own and comes to the same. -/
lemma kept_decodeFor_eq_iff {first stream : Stream} :
    kept (decodeFor table key first) = kept (decodeMethod table stream)
      ↔ first.key = key ∧ kept (decodeMethod table first) = kept (decodeMethod table stream) := by
  rw [decodeFor]
  split_ifs with hkey
  · rw [and_iff_right hkey]
  · refine iff_of_false ?_ fun h => hkey h.1
    cases hdecode : decodeMethod table stream with
    | ok m => exact fun h => by cases h
    | error e =>
        intro h
        exact (decodeMethod_fails stream e hdecode).message_ne first.key key
          (Except.error.inj h).symm

/-- After queries whose first request for a key has handed in a stream, another one is verified for
the key exactly if the first one is stored under it, and both come to the same. Otherwise there is a
breach. -/
lemma verify_after (table : ShapeTable) {qs : List Query} {first : Call} (stream : Stream)
    (hfirst : (calls qs).find? (·.key == key) = some first) :
    let c := (Cache.empty table).after qs
    (c.verify key stream = .ok ()
        ↔ first.stream.key = key
          ∧ kept (decodeMethod table first.stream) = kept (decodeMethod table stream))
      ∧ (c.verify key stream ≠ .ok () →
        c.verify key stream = .error (.cacheInvariant key .resultDiffers)) := by
  intro c
  have hkey : first.key = key := by simpa using List.find?_some hfirst
  have htable : c.table = table := table_after (.empty table) qs
  have houtcome : c.outcome? key = some (kept (decodeFor table key first.stream)) := by
    rw [outcome?, get?_after, hfirst, ← hkey]
    rfl
  rw [← kept_decodeFor_eq_iff, verify, ← outcome?, houtcome, ← agree_kept_iff, htable]
  dsimp only
  cases agree (kept (decodeFor table key first.stream)) (decodeMethod table stream) <;> simp

/-- A request that is not refused hands in bytes of the fingerprint that its key is marked with. -/
lemma mark_of_not_breach {x : Call} {f : Bytes} (hmark : c.mark? x.key = some f)
    (h : ¬ (c.ask (.request x)).2.IsBreach) : f = x.mark := by
  by_contra hne
  refine h ⟨x.key, .streamDiffers, ?_⟩
  show (c.request x.key x.stream).2.result = _
  rw [request_of_differs hmark hne]
  rfl

/-- **A stream that was accepted is verified exactly if keys agree.** Take any queries, a request
that is not refused, and any queries after it. The stream that was first handed in for the key has
the fingerprint of the one requested. Verifying the latter succeeds exactly if the former is stored
under the key, and both come to the same; it reports a breach otherwise. If the bytes are the same,
and not only their fingerprints, this is so exactly if the former is stored under the key, and the
latter is, too, or cannot be decoded. -/
theorem verify_eq_ok_iff (table : ShapeTable) (qs qs' : List Query) (x : Call)
    (h : ¬ (((Cache.empty table).after qs).ask (.request x)).2.IsBreach) :
    let c := (Cache.empty table).after (qs ++ .request x :: qs')
    ∃ first, (calls qs ++ [x]).find? (·.key == x.key) = some first ∧ first.mark = x.mark
      ∧ (c.verify x.key x.stream = .ok ()
        ↔ first.stream.key = x.key
          ∧ kept (decodeMethod table first.stream) = kept (decodeMethod table x.stream))
      ∧ (c.verify x.key x.stream ≠ .ok () →
        c.verify x.key x.stream = .error (.cacheInvariant x.key .resultDiffers))
      ∧ (first.stream.data = x.stream.data →
        (c.verify x.key x.stream = .ok ()
          ↔ first.stream.key = x.key
            ∧ (x.stream.key = x.key ∨ ∃ e, decodeMethod table x.stream = .error e))) := by
  intro c
  obtain ⟨first, hfirst⟩ : ∃ first, (calls qs ++ [x]).find? (·.key == x.key) = some first :=
    Option.isSome_iff_exists.mp (by simp)
  have hmark : first.mark = x.mark := by
    rw [List.find?_append] at hfirst
    cases hold : (calls qs).find? (·.key == x.key) with
    | none =>
        rw [hold, Option.none_or, List.find?_singleton, if_pos (beq_self_eq_true _)] at hfirst
        rw [Option.some.inj hfirst]
    | some y =>
        rw [hold, Option.some_or] at hfirst
        obtain rfl := Option.some.inj hfirst
        refine mark_of_not_breach ?_ h
        rw [mark?, get?_after, hold]
        rfl
  have hcalls : (calls (qs ++ .request x :: qs')).find? (·.key == x.key) = some first := by
    have happend : calls (qs ++ .request x :: qs') = (calls qs ++ [x]) ++ calls qs' := by
      simp [calls, Query.call?]
    rw [happend, List.find?_append, hfirst, Option.some_or]
  obtain ⟨hverify, hbreach⟩ := verify_after table x.stream hcalls
  refine ⟨first, hfirst, hmark, hverify, hbreach, fun hdata => ?_⟩
  rw [hverify, kept_decodeMethod_eq_iff hdata]
  constructor
  · rintro ⟨hown, hsame | herror⟩
    · exact ⟨hown, .inl (hsame.symm.trans hown)⟩
    · exact ⟨hown, .inr herror⟩
  · rintro ⟨hown, hsame | herror⟩
    · exact ⟨hown, .inl (hown.trans hsame.symm)⟩
    · exact ⟨hown, .inr herror⟩

/-- The bytes of a method, stored under the key of another one. -/
def sampleRelabelled : Call := ⟨sampleOwn.key, ⟨sampleForeign.key, sampleOwn.stream.data⟩⟩

lemma decodeFor_sampleOwn : decodeFor .default sampleOwn.key sampleOwn.stream
    = .ok (.ofParts sampleOwn.key 1 [⟨0, 1, 0x2A, .none, .inferred⟩] []) := by
  decide +kernel

/-- Bytes that were decoded for a key are accepted for it again, whatever key they are stored
under. -/
lemma not_isBreach_of_kept {x y : Call} (hkey : x.key = y.key)
    (hdata : x.stream.data = y.stream.data) {m : Method}
    (hdecode : decodeFor table x.key x.stream = .ok m) :
    ¬ (((Cache.empty table).after [.request x]).ask (.request y)).2.IsBreach := by
  have hafter : (Cache.empty table).after [.request x] = (Cache.empty table).keep x :=
    after_request_of_new rfl []
  have hmark : ((Cache.empty table).keep x).mark? y.key = some (fingerprint y.stream.data) := by
    rw [mark?, keep, ← hkey, Ledger.get?_insert_self, ← hdata]
    rfl
  have hkept : ((Cache.empty table).keep x).outcome? y.key = some (.ok m) := by
    rw [outcome?_keep, if_pos hkey.symm]
    exact congrArg (fun r => some (kept r)) hdecode
  rintro ⟨key, what, hbreach⟩
  change (((Cache.empty table).after [.request x]).request y.key y.stream).2.result = _ at hbreach
  rw [hafter, request_of_kept hmark hkept] at hbreach
  cases hbreach

theorem verify_eq_ok_iff_own :
    ¬ (((Cache.empty .default).after [.request sampleOwn]).ask (.request sampleOwn)).2.IsBreach
      ∧ ((Cache.empty .default).after
          [.request sampleOwn, .request sampleOwn, .request sampleForeign]).verify
            sampleOwn.key sampleOwn.stream = .ok () := by
  have h := not_isBreach_of_kept (x := sampleOwn) (y := sampleOwn) rfl rfl decodeFor_sampleOwn
  obtain ⟨first, hfirst, -, -, -, hverify⟩ :=
    verify_eq_ok_iff .default [.request sampleOwn] [.request sampleForeign] sampleOwn h
  obtain rfl : sampleOwn = first := Option.some.inj hfirst
  exact ⟨h, (hverify rfl).mpr ⟨rfl, .inl rfl⟩⟩

/-- A stream that was not refused need not be verified: neither if it is the first one for a key
that it is not stored under, nor if its bytes were decoded for the key before, and it is stored
under another one. -/
theorem verify_of_foreign_stream :
    (¬ (((Cache.empty .default).after []).ask (.request sampleForeign)).2.IsBreach
      ∧ ((Cache.empty .default).after [.request sampleForeign]).verify
          sampleForeign.key sampleForeign.stream
        = .error (.cacheInvariant sampleForeign.key .resultDiffers))
    ∧ ¬ (((Cache.empty .default).after [.request sampleOwn]).ask
        (.request sampleRelabelled)).2.IsBreach
      ∧ ((Cache.empty .default).after [.request sampleOwn, .request sampleRelabelled]).verify
          sampleRelabelled.key sampleRelabelled.stream
        = .error (.cacheInvariant sampleRelabelled.key .resultDiffers) := by
  have hrelabelled : decodeMethod .default sampleRelabelled.stream
      = .ok (.ofParts sampleForeign.key 1 [⟨0, 1, 0x2A, .none, .inferred⟩] []) := by decide +kernel
  have hforeign : (calls [.request sampleForeign]).find? (·.key == sampleForeign.key)
      = some sampleForeign := rfl
  have hown : (calls [.request sampleOwn, .request sampleRelabelled]).find?
      (·.key == sampleRelabelled.key) = some sampleOwn := rfl
  refine ⟨⟨?_, ?_⟩, not_isBreach_of_kept rfl rfl decodeFor_sampleOwn, ?_⟩
  · rintro ⟨key, what, hbreach⟩
    have hresult : ((Cache.empty .default).request sampleForeign.key sampleForeign.stream).2.result
        = .error (.format (.foreignStream sampleOwn.key sampleForeign.key)) :=
      request_result_of_new rfl
    cases hresult.symm.trans hbreach
  · obtain ⟨hverify, hbreach⟩ := verify_after .default sampleForeign.stream hforeign
    refine hbreach fun hok => ?_
    exact absurd (hverify.mp hok).1 (by decide)
  · obtain ⟨hverify, hbreach⟩ := verify_after .default sampleRelabelled.stream hown
    refine hbreach fun hok => ?_
    have hsame := (hverify.mp hok).2
    have hdata : sampleOwn.stream.data = sampleRelabelled.stream.data := rfl
    rcases (kept_decodeMethod_eq_iff hdata).mp hsame with hkey | ⟨e, herror⟩
    · exact absurd hkey (by decide)
    · cases herror.symm.trans hrelabelled

end Cache

end OpcodeRecovery
