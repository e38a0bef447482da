import Mathlib.Tactic
import OpcodeRecovery.Ledger

/-!
Ledgers after one write and after many. `Ledger.perm_entries_insert` says that the write of a new
key adds one pair to those that are there.

`Ledger.get?_foldl_of_frame` and `Ledger.get?_foldl_cases` say what a look-up shows after a
sequence of steps, from what it shows after one: a key that no step writes keeps its value, and
a value that was not there before was written. `Ledger.get?_foldl_insert` is the case of one
value for several keys. `Ledger.writeAll` writes a list of pairs, and
`Ledger.get?_ofList_eq_some_iff` says that a list without repeated keys is what its ledger shows.

`Ledger.get?_mergeWith` says what a look-up shows in a sum of ledgers. It makes `mergeWith`
associative, and commutative, wherever the combination of two values is.
`Ledger.forall_get?_mergeWith` says what is true of all values of a sum of ledgers, and
`Ledger.sum_mergeWith` is the sum of a quantity over them.

`Ledger.dominantEntry_eq_some_iff` says which key has the largest count, the lowest such key among
several (`Ledger.Dominates`). `Ledger.Counts` says that a ledger counts the members of a list; one
more member keeps it (`Ledger.Counts.add`), and there is one such ledger, whatever the order of the
list (`Ledger.Counts.eq`, `Ledger.Counts.perm`).

`find?_key_eq_some_iff` is the look-up by key in a plain list whose keys are distinct.
-/

namespace OpcodeRecovery

/-- A list in which every key stands for one member has each member under its key. -/
lemma find?_key_eq_some_iff {α κ : Type} [DecidableEq κ] {f : α → κ} {as : List α}
    (hinj : ∀ a ∈ as, ∀ b ∈ as, f a = f b → a = b) {k : κ} {a : α} :
    as.find? (fun b => f b == k) = some a ↔ a ∈ as ∧ f a = k := by
  have hfound {b : α} (hb : as.find? (fun b => f b == k) = some b) : b ∈ as ∧ f b = k :=
    ⟨List.mem_of_find?_eq_some hb, by simpa using List.find?_some hb⟩
  refine ⟨hfound, ?_⟩
  rintro ⟨ha, hk⟩
  have hsome : (as.find? fun b => f b == k).isSome :=
    List.find?_isSome.mpr ⟨a, ha, beq_iff_eq.mpr hk⟩
  obtain ⟨b, hb⟩ := Option.isSome_iff_exists.mp hsome
  obtain ⟨hmem, hkey⟩ := hfound hb
  rw [hb, hinj b hmem a ha (hkey.trans hk.symm)]

namespace Ledger

/-! ### The largest count -/

/-- Of the first two pairs, the one with the larger count goes on. -/
lemma dominantEntry_cons_cons {κ : Type} (e e' : κ × ℕ) (es : List (κ × ℕ)) :
    dominantEntry (e :: e' :: es) = dominantEntry ((if e.2 ≥ e'.2 then e else e') :: es) := by
  simp only [dominantEntry, List.foldl_cons]
  split_ifs <;> rfl

variable {κ ν α : Type} [Ranked κ]

/-- A pair dominates a list that it stands in: no pair has a larger count, and none with a lower key
has the same count. -/
structure Dominates (es : List (κ × ℕ)) (e : κ × ℕ) : Prop where
  mem : e ∈ es
  le : ∀ a ∈ es, a.2 ≤ e.2
  lt : ∀ a ∈ es, rank a.1 < rank e.1 → a.2 < e.2

lemma Dominates.key_eq {es : List (κ × ℕ)} {e e' : κ × ℕ} (h : Dominates es e)
    (h' : Dominates es e') : e.1 = e'.1 := by
  have hle := h.le e' h'.mem
  have hle' := h'.le e h.mem
  have hlt := h.lt e' h'.mem
  have hlt' := h'.lt e h.mem
  exact Ranked.rank_injective _ _ (by omega)

lemma Dominates.perm {es es' : List (κ × ℕ)} {e : κ × ℕ} (h : Dominates es e)
    (hperm : es.Perm es') : Dominates es' e where
  mem := hperm.mem_iff.mp h.mem
  le a ha := h.le a (hperm.mem_iff.mpr ha)
  lt a ha := h.lt a (hperm.mem_iff.mpr ha)

/-- A pair that dominates a list dominates a further one, too, if that has no larger count, and a
lower one where its key is lower. -/
lemma Dominates.cons {es : List (κ × ℕ)} {a e : κ × ℕ} (h : Dominates es e) (hle : a.2 ≤ e.2)
    (hlt : rank a.1 < rank e.1 → a.2 < e.2) : Dominates (a :: es) e where
  mem := List.mem_cons_of_mem a h.mem
  le := List.forall_mem_cons.mpr ⟨hle, h.le⟩
  lt := List.forall_mem_cons.mpr ⟨hlt, h.lt⟩

/-- Some pair dominates a list with ascending keys, and its key is the one with the largest
count. -/
lemma exists_dominates (e : κ × ℕ) (es : List (κ × ℕ))
    (h : (e :: es).Pairwise fun a b => rank a.1 < rank b.1) :
    ∃ e', Dominates (e :: es) e' ∧ dominantEntry (e :: es) = some e'.1 := by
  induction es generalizing e with
  | nil => exact ⟨e, ⟨by simp, by simp, by simp⟩, rfl⟩
  | cons a es ih =>
      obtain ⟨hhead, htail⟩ := List.pairwise_cons.mp h
      have hea := hhead a List.mem_cons_self
      rw [dominantEntry_cons_cons]
      split_ifs with hcount
      · -- `e` goes on; `a` behind it has no larger count
        have hrest : (e :: es).Pairwise fun a b => rank a.1 < rank b.1 :=
          h.sublist ((List.sublist_cons_self a es).cons_cons e)
        obtain ⟨e', he', hdominant⟩ := ih e hrest
        have hle := he'.le e List.mem_cons_self
        have hlt := he'.lt e List.mem_cons_self
        refine ⟨e', (he'.cons (by omega) ?_).perm (.swap e a es), hdominant⟩
        intro hrank
        have := hlt (hea.trans hrank)
        omega
      · -- `a` goes on; `e` before it has a lower count
        obtain ⟨e', he', hdominant⟩ := ih a htail
        have hle := he'.le a List.mem_cons_self
        exact ⟨e', he'.cons (by omega) (by omega), hdominant⟩

/-- The key with the largest count, of a list with ascending keys. -/
lemma dominantEntry_eq_some_iff {es : List (κ × ℕ)}
    (h : es.Pairwise fun a b => rank a.1 < rank b.1) {k : κ} :
    dominantEntry es = some k ↔ ∃ n, Dominates es (k, n) := by
  cases es with
  | nil =>
      constructor
      · rintro ⟨⟩
      · rintro ⟨n, hn⟩
        cases hn.mem
  | cons e es =>
      obtain ⟨e', he', hdominant⟩ := exists_dominates e es h
      rw [hdominant, Option.some.injEq]
      constructor
      · rintro rfl
        exact ⟨e'.2, he'⟩
      · rintro ⟨n, hn⟩
        exact he'.key_eq hn

lemma dominantEntry_eq_none_iff {es : List (κ × ℕ)}
    (h : es.Pairwise fun a b => rank a.1 < rank b.1) : dominantEntry es = none ↔ es = [] := by
  cases es with
  | nil => exact iff_of_true rfl rfl
  | cons e es =>
      obtain ⟨e', -, hdominant⟩ := exists_dominates e es h
      simp [hdominant]

/-! ### One write -/

lemma get?_insert_self (l : Ledger κ ν) (k : κ) (v : ν) : (l.insert k v).get? k = some v :=
  get?_upsert_self l k _

lemma get?_insert_of_ne (l : Ledger κ ν) {k k' : κ} (v : ν) (hne : k' ≠ k) :
    (l.insert k v).get? k' = l.get? k' :=
  get?_upsert_of_ne l _ hne

/-- Whatever value a key has after a write, it had before, or it was written. -/
lemma get?_insert_cases {l : Ledger κ ν} {k k' : κ} {v w : ν}
    (h : (l.insert k v).get? k' = some w) : l.get? k' = some w ∨ k' = k ∧ w = v := by
  by_cases hk : k' = k
  · rw [hk, get?_insert_self] at h
    exact .inr ⟨hk, (Option.some.inj h).symm⟩
  · rw [get?_insert_of_ne l v hk] at h
    exact .inl h

/-- The pairs of a ledger are what it shows. -/
lemma mem_entries_iff {l : Ledger κ ν} {k : κ} {v : ν} :
    (k, v) ∈ l.entries ↔ l.get? k = some v := by
  obtain ⟨es, h⟩ := l
  induction es with
  | nil => simp [get?]
  | cons e es ih =>
      obtain ⟨i, u⟩ := e
      obtain ⟨hhead, htail⟩ := List.pairwise_cons.mp h
      rw [get?_mk_cons, List.mem_cons, Prod.mk.injEq]
      by_cases hk : k = i
      · subst hk
        have hnew : (k, v) ∉ es := fun hmem => absurd (hhead _ hmem) (Nat.lt_irrefl _)
        simp [hnew, eq_comm]
      · have hrank : ¬ rank i = rank k := fun heq => hk (Ranked.rank_injective i k heq).symm
        rw [if_neg hrank, ← ih htail]
        simp [hk]

/-- A value that is written and then changed is written as it is in the end. -/
lemma upsert_insert (l : Ledger κ ν) (k : κ) (v : ν) (f : Option ν → ν) :
    (l.insert k v).upsert k f = l.insert k (f (some v)) := by
  refine ext_get? fun k' => ?_
  by_cases hk : k' = k
  · rw [hk, get?_upsert_self, get?_insert_self, get?_insert_self]
  · rw [get?_upsert_of_ne _ f hk, get?_insert_of_ne _ _ hk, get?_insert_of_ne _ _ hk]

lemma nodup_entries (l : Ledger κ ν) : l.entries.Nodup :=
  l.ascending.imp fun hlt heq => absurd hlt (by rw [heq]; exact Nat.lt_irrefl _)

/-- The write of a new key adds its pair to those that are there. -/
lemma perm_entries_insert {l : Ledger κ ν} {k : κ} (hk : l.get? k = none) (v : ν) :
    (l.insert k v).entries.Perm ((k, v) :: l.entries) := by
  have hnew : ∀ w, (k, w) ∉ l.entries := fun w hmem => by
    rw [mem_entries_iff.mp hmem] at hk
    cases hk
  refine (List.perm_ext_iff_of_nodup (nodup_entries _)
    (List.nodup_cons.mpr ⟨hnew v, nodup_entries l⟩)).mpr fun ⟨i, w⟩ => ?_
  rw [mem_entries_iff, List.mem_cons, Prod.mk.injEq]
  by_cases hi : i = k
  · rw [hi, get?_insert_self]
    simp [hnew w, eq_comm]
  · rw [get?_insert_of_ne l v hi, mem_entries_iff]
    simp [hi]

/-! ### Many writes -/

variable {g : Ledger κ ν → α → Ledger κ ν} {as : List α} {k : κ}

/-- A key that no step writes keeps its value. -/
lemma get?_foldl_of_frame (hg : ∀ l, ∀ a ∈ as, (g l a).get? k = l.get? k) (l : Ledger κ ν) :
    (as.foldl g l).get? k = l.get? k := by
  induction as generalizing l with
  | nil => rfl
  | cons a as ih =>
      rw [List.foldl_cons, ih fun l b hb => hg l b (List.mem_cons_of_mem a hb),
        hg l a List.mem_cons_self]

/-- Whatever value a key has after some steps, it had before, or one of them wrote it. -/
lemma get?_foldl_cases {P : ν → Prop} {v : ν} {l : Ledger κ ν}
    (hg : ∀ l, ∀ a ∈ as, ∀ v, (g l a).get? k = some v → l.get? k = some v ∨ P v)
    (h : (as.foldl g l).get? k = some v) : l.get? k = some v ∨ P v := by
  induction as generalizing l with
  | nil => exact .inl h
  | cons a as ih =>
      rw [List.foldl_cons] at h
      rcases ih (fun l b hb => hg l b (List.mem_cons_of_mem a hb)) h with h | h
      · exact hg l a List.mem_cons_self v h
      · exact .inr h

/-- One value for several keys shows at these and nowhere else. -/
lemma get?_foldl_insert [DecidableEq κ] (ks : List κ) (v : ν) (l : Ledger κ ν) (k : κ) :
    (ks.foldl (fun l k => l.insert k v) l).get? k = if k ∈ ks then some v else l.get? k := by
  induction ks generalizing l with
  | nil => simp
  | cons a ks ih =>
      rw [List.foldl_cons, ih]
      by_cases hk : k ∈ ks
      · rw [if_pos hk, if_pos (List.mem_cons_of_mem a hk)]
      · by_cases ha : k = a
        · rw [if_neg hk, ha, get?_insert_self, if_pos List.mem_cons_self]
        · rw [if_neg hk, get?_insert_of_ne l v ha, if_neg (by simp [ha, hk])]

/-- Writes pairs one after the other. -/
def writeAll (l : Ledger κ ν) (es : List (κ × ν)) : Ledger κ ν :=
  es.foldl (fun l e => l.insert e.1 e.2) l

lemma writeAll_append (l : Ledger κ ν) (es es' : List (κ × ν)) :
    l.writeAll (es ++ es') = (l.writeAll es).writeAll es' :=
  List.foldl_append

lemma ofList_eq_writeAll (es : List (κ × ν)) : ofList es = empty.writeAll es := rfl

/-- Steps that write at most one pair each write the pairs of the steps that do. -/
lemma foldl_eq_writeAll {w : α → Option (κ × ν)}
    (hg : ∀ l a, g l a = match w a with | some e => l.insert e.1 e.2 | none => l)
    (as : List α) (l : Ledger κ ν) : as.foldl g l = l.writeAll (as.filterMap w) := by
  induction as generalizing l with
  | nil => rfl
  | cons a as ih =>
      rw [List.foldl_cons, ih, hg]
      cases ha : w a with
      | none => rw [List.filterMap_cons_none ha]
      | some e => rw [List.filterMap_cons_some ha]; rfl

/-- A list without repeated keys is what its ledger shows. -/
lemma get?_ofList_eq_some_iff {es : List (κ × ν)} (h : (es.map Prod.fst).Nodup) {v : ν} :
    (ofList es).get? k = some v ↔ (k, v) ∈ es := by
  induction es using List.reverseRecOn with
  | nil => simp [ofList]
  | append_singleton es e ih =>
      obtain ⟨i, u⟩ := e
      rw [List.map_append, List.map_singleton, List.nodup_append] at h
      have hstep : ofList (es ++ [(i, u)]) = (ofList es).insert i u := List.foldl_append
      rw [hstep, List.mem_append, List.mem_singleton, Prod.mk.injEq]
      by_cases hk : k = i
      · -- the key is new, so no earlier pair has it
        have hnew : (k, v) ∉ es := fun hmem =>
          h.2.2 k (List.mem_map_of_mem hmem) i (List.mem_singleton.mpr rfl) hk
        rw [hk, get?_insert_self]
        simp [← hk, hnew, eq_comm]
      · rw [get?_insert_of_ne _ _ hk, ih h.1]
        simp [hk]

/-! ### Adding ledgers -/

/-- A sum shows at a key what its parts show there, combined if both have the key. -/
lemma get?_mergeWith (f : ν → ν → ν) (a b : Ledger κ ν) (k : κ) :
    (a.mergeWith f b).get? k = Option.merge f (a.get? k) (b.get? k) := by
  obtain ⟨es, h⟩ := b
  induction es generalizing a with
  | nil => exact Option.merge_none_right.symm
  | cons e es ih =>
      obtain ⟨i, v⟩ := e
      obtain ⟨hhead, htail⟩ := List.pairwise_cons.mp h
      obtain ⟨g, hg, hstep⟩ : ∃ g : Option ν → ν, (∀ o, some (g o) = Option.merge f o (some v))
          ∧ a.mergeWith f ⟨(i, v) :: es, h⟩ = (a.upsert i g).mergeWith f ⟨es, htail⟩ :=
        ⟨_, fun o => by cases o <;> rfl, rfl⟩
      rw [hstep, ih, get?_mk_cons]
      by_cases hk : k = i
      · -- the rest of the second ledger lies above its first key
        have hnone : (Ledger.mk es htail).get? i = none := get?_eq_none_of_lt hhead
        subst hk
        rw [get?_upsert_self, hnone, if_pos rfl, Option.merge_none_right]
        exact hg _
      · have hrank : ¬ rank i = rank k := fun heq => hk (Ranked.rank_injective i k heq).symm
        rw [get?_upsert_of_ne a _ hk, if_neg hrank]

/-- Whatever value a key has in a sum comes from one part, or is combined from both. -/
lemma get?_mergeWith_cases {f : ν → ν → ν} {a b : Ledger κ ν} {v : ν}
    (h : (a.mergeWith f b).get? k = some v) :
    a.get? k = some v ∨ b.get? k = some v
      ∨ ∃ x y, a.get? k = some x ∧ b.get? k = some y ∧ v = f x y := by
  rw [get?_mergeWith] at h
  cases ha : a.get? k with
  | none =>
      rw [ha, Option.merge_none_left] at h
      exact .inr (.inl h)
  | some x =>
      cases hb : b.get? k with
      | none =>
          rw [ha, hb, Option.merge_none_right] at h
          exact .inl h
      | some y =>
          rw [ha, hb, Option.merge_some_some] at h
          exact .inr (.inr ⟨x, y, rfl, rfl, (Option.some.inj h).symm⟩)

/-- What holds of the values of two ledgers, and is kept when values are combined, holds of the
values of the sum. -/
lemma forall_get?_mergeWith {P : κ → ν → Prop} {f : ν → ν → ν} {a b : Ledger κ ν}
    (hf : ∀ k v w, P k v → P k w → P k (f v w)) (ha : ∀ k v, a.get? k = some v → P k v)
    (hb : ∀ k v, b.get? k = some v → P k v) (k : κ) (v : ν)
    (h : (a.mergeWith f b).get? k = some v) : P k v := by
  rcases get?_mergeWith_cases h with hv | hv | ⟨x, y, hx, hy, rfl⟩
  · exact ha k v hv
  · exact hb k v hv
  · exact hf k x y (ha k x hx) (hb k y hy)

lemma empty_mergeWith (f : ν → ν → ν) (a : Ledger κ ν) : empty.mergeWith f a = a :=
  ext_get? fun k => by rw [get?_mergeWith, get?_empty, Option.merge_none_left]

lemma mergeWith_assoc (f : ν → ν → ν) [Std.Associative f] (a b c : Ledger κ ν) :
    (a.mergeWith f b).mergeWith f c = a.mergeWith f (b.mergeWith f c) := by
  have hassoc : Std.Associative (Option.merge f) := inferInstance
  refine ext_get? fun k => ?_
  simp only [get?_mergeWith, hassoc.assoc]

/-- Ledgers whose values can be combined in either order can be added in either order. -/
lemma mergeWith_comm_of {f : ν → ν → ν} {a b : Ledger κ ν}
    (h : ∀ k v w, a.get? k = some v → b.get? k = some w → f v w = f w v) :
    a.mergeWith f b = b.mergeWith f a := by
  refine ext_get? fun k => ?_
  rw [get?_mergeWith, get?_mergeWith]
  cases ha : a.get? k with
  | none => rw [Option.merge_none_left, Option.merge_none_right]
  | some v =>
      cases hb : b.get? k with
      | none => rw [Option.merge_none_left, Option.merge_none_right]
      | some w => rw [Option.merge_some_some, Option.merge_some_some, h k v w ha hb]

lemma mergeWith_comm (f : ν → ν → ν) [hf : Std.Commutative f] (a b : Ledger κ ν) :
    a.mergeWith f b = b.mergeWith f a :=
  mergeWith_comm_of fun _ v w _ _ => hf.comm v w

/-! ### Sums -/

/-- A write changes a sum over all values by what it changes in its own. -/
lemma sum_upsert (g : ν → ℕ) (l : Ledger κ ν) (k : κ) (f : Option ν → ν) :
    ((l.upsert k f).values.map g).sum + ((l.get? k).map g).getD 0
      = (l.values.map g).sum + g (f (l.get? k)) := by
  obtain ⟨es, h⟩ := l
  induction es with
  | nil => simp [upsert, upsertEntries, values, get?]
  | cons e es ih =>
      obtain ⟨i, v⟩ := e
      obtain ⟨hhead, htail⟩ := List.pairwise_cons.mp h
      have hrest := ih htail
      rw [get?_mk_cons]
      simp only [upsert, upsertEntries, values] at hrest ⊢
      by_cases hlt : rank k < rank i
      · have hnone : (Ledger.mk es htail).get? k = none :=
          get?_eq_none_of_lt fun e he => hlt.trans (hhead e he)
        have hne : ¬ rank i = rank k := by omega
        simp [hlt, hnone, hne, Nat.add_comm]
      · by_cases heq : rank k = rank i
        · simp only [heq, Nat.lt_irrefl, if_false, if_true, List.map_cons, List.sum_cons,
            Option.map_some, Option.getD_some]
          omega
        · have hne : ¬ rank i = rank k := fun h => heq h.symm
          simp only [hlt, heq, hne, if_false, List.map_cons, List.sum_cons]
          omega

/-- A quantity that is added when values are combined has the sum of the two sums. -/
lemma sum_mergeWith {f : ν → ν → ν} {g : ν → ℕ} (hg : ∀ v w, g (f v w) = g v + g w)
    (a b : Ledger κ ν) :
    ((a.mergeWith f b).values.map g).sum = (a.values.map g).sum + (b.values.map g).sum := by
  obtain ⟨es, h⟩ := b
  induction es generalizing a with
  | nil => rfl
  | cons e es ih =>
      obtain ⟨i, v⟩ := e
      have htail := (List.pairwise_cons.mp h).2
      obtain ⟨u, hu, hstep⟩ : ∃ u : Option ν → ν, (∀ o, g (u o) = (o.map g).getD 0 + g v)
          ∧ a.mergeWith f ⟨(i, v) :: es, h⟩ = (a.upsert i u).mergeWith f ⟨es, htail⟩ :=
        ⟨_, fun o => by cases o <;> simp [hg], rfl⟩
      have hwrite := sum_upsert g a i u
      have hcons : ((Ledger.mk ((i, v) :: es) h).values.map g).sum
          = g v + ((Ledger.mk es htail).values.map g).sum := rfl
      rw [hu] at hwrite
      rw [hstep, ih, hcons]
      omega

lemma total_mergeWith (a b : Ledger κ ℕ) :
    (a.mergeWith (· + ·) b).total = a.total + b.total := by
  have hsum := sum_mergeWith (f := (· + ·)) (g := id) (fun _ _ => rfl) a b
  rw [List.map_id, List.map_id, List.map_id] at hsum
  exact hsum

/-- The count of a key, zero if it has none. -/
def count (l : Ledger κ ℕ) (k : κ) : ℕ := (l.get? k).getD 0

lemma count_mergeWith (a b : Ledger κ ℕ) (k : κ) :
    (a.mergeWith (· + ·) b).count k = a.count k + b.count k := by
  rw [count, get?_mergeWith, count, count]
  cases a.get? k <;> cases b.get? k <;> simp

/-! ### Counting a list -/

/-- The counts are those of the members of a list; what is no member has no count. -/
def Counts [BEq κ] (l : Ledger κ ℕ) (ks : List κ) : Prop :=
  ∀ k n, l.get? k = some n ↔ n = ks.count k ∧ 0 < n

section Counts

variable [BEq κ] {l l' : Ledger κ ℕ} {ks ks' : List κ}

lemma Counts.empty : Counts (.empty : Ledger κ ℕ) [] := by
  intro k n
  constructor
  · intro h
    cases h
  · rintro ⟨rfl, hpos⟩
    exact absurd hpos (Nat.lt_irrefl 0)

lemma Counts.count_eq (h : l.Counts ks) (k : κ) : l.count k = ks.count k := by
  rw [count]
  cases hk : l.get? k with
  | some n => exact ((h k n).mp hk).1
  | none =>
      have hzero : ¬ 0 < ks.count k := fun hpos => by
        rw [(h k _).mpr ⟨rfl, hpos⟩] at hk
        cases hk
      exact (Nat.eq_zero_of_not_pos hzero).symm

/-- Counting one more member. -/
lemma Counts.add [LawfulBEq κ] (h : l.Counts ks) (k : κ) : (l.add k 1).Counts (ks ++ [k]) := by
  intro i n
  rw [Ledger.add, List.count_append, List.count_singleton]
  by_cases hi : i = k
  · rw [hi, get?_upsert_self, ← count, h.count_eq k, Option.some.injEq, if_pos BEq.rfl]
    omega
  · rw [get?_upsert_of_ne _ _ hi, if_neg (by simpa using Ne.symm hi), Nat.add_zero]
    exact h i n

lemma Counts.perm (h : l.Counts ks) (hperm : ks.Perm ks') : l.Counts ks' := by
  intro k n
  rw [h k n, hperm.count_eq]

/-- Ledgers that count the same list are equal. -/
lemma Counts.eq (h : l.Counts ks) (h' : l'.Counts ks) : l = l' := by
  refine ext_get? fun k => Option.ext fun n => ?_
  rw [h k n, h' k n]

end Counts

/-! ### Keys -/

lemma mem_keys_iff {l : Ledger κ ν} : k ∈ l.keys ↔ (l.get? k).isSome := by
  simp only [keys, get?, Option.isSome_map, List.find?_isSome, List.mem_map, beq_iff_eq]
  constructor
  · rintro ⟨e, he, rfl⟩
    exact ⟨e, he, rfl⟩
  · rintro ⟨e, he, hrank⟩
    exact ⟨e, he, Ranked.rank_injective _ _ hrank⟩

lemma pairwise_keys (l : Ledger κ ν) : l.keys.Pairwise fun a b => rank a < rank b :=
  List.pairwise_map.mpr l.ascending

/-- A write adds its key. -/
lemma mem_keys_upsert {l : Ledger κ ν} {i : κ} {f : Option ν → ν} :
    k ∈ (l.upsert i f).keys ↔ k = i ∨ k ∈ l.keys := by
  rw [mem_keys_iff, mem_keys_iff]
  by_cases hk : k = i
  · simp [hk]
  · simp [hk, get?_upsert_of_ne l f hk]

/-- The keys of the ledger of a list are those of the list. -/
lemma mem_keys_ofList {es : List (κ × ν)} : k ∈ (ofList es).keys ↔ k ∈ es.map Prod.fst := by
  induction es using List.reverseRecOn with
  | nil => simp [ofList, keys, empty]
  | append_singleton es e ih =>
      have hstep : ofList (es ++ [e]) = (ofList es).insert e.1 e.2 := List.foldl_append
      rw [hstep, insert, mem_keys_upsert, ih, List.map_append, List.mem_append, or_comm]
      simp

/-- The ledger behind `distinct` has the members of the list as its keys. -/
lemma get?_ofList_unit [DecidableEq κ] (ks : List κ) :
    (ofList (ks.map fun k => (k, ()))).get? k = if k ∈ ks then some () else none := by
  rw [ofList, List.foldl_map, get?_foldl_insert, get?_empty]

lemma mem_distinct [DecidableEq κ] {ks : List κ} : k ∈ distinct ks ↔ k ∈ ks := by
  rw [distinct, mem_keys_iff, get?_ofList_unit]
  split_ifs with h <;> simp [h]

/-- Lists with the same members have the same distinct members in order. -/
lemma distinct_eq_of_mem_iff [DecidableEq κ] {ks ks' : List κ} (h : ∀ k, k ∈ ks ↔ k ∈ ks') :
    distinct ks = distinct ks' := by
  refine congrArg keys (ext_get? fun k => ?_)
  rw [get?_ofList_unit, get?_ofList_unit]
  simp only [h]

lemma pairwise_distinct (ks : List κ) : (distinct ks).Pairwise fun a b => rank a < rank b :=
  pairwise_keys _

lemma nodup_distinct (ks : List κ) : (distinct ks).Nodup :=
  (pairwise_distinct ks).imp fun hlt heq => absurd hlt (by rw [heq]; exact Nat.lt_irrefl _)

/-- Distinct members may be chosen before or after they are put in order. -/
lemma filter_distinct [DecidableEq κ] (p : κ → Bool) (ks : List κ) :
    (distinct ks).filter p = distinct (ks.filter p) := by
  have hperm : ((distinct ks).filter p).Perm (distinct (ks.filter p)) := by
    refine (List.perm_ext_iff_of_nodup ((nodup_distinct ks).filter p) (nodup_distinct _)).mpr ?_
    intro k
    rw [List.mem_filter, mem_distinct, mem_distinct, List.mem_filter]
  refine hperm.eq_of_pairwise (fun a b _ _ hab hba => absurd hab (Nat.lt_asymm hba)) ?_
    (pairwise_distinct _)
  exact (pairwise_distinct ks).filter p

/-- Lists that agree on what is chosen have the same distinct members of that kind. -/
lemma filter_distinct_congr [DecidableEq κ] {p : κ → Bool} {ks ks' : List κ}
    (h : ∀ k, p k = true → (k ∈ ks ↔ k ∈ ks')) :
    (distinct ks).filter p = (distinct ks').filter p := by
  rw [filter_distinct, filter_distinct]
  refine distinct_eq_of_mem_iff fun k => ?_
  rw [List.mem_filter, List.mem_filter]
  exact and_congr_left (h k)

/-- Lists that agree on what yields something yield the same, in order. -/
lemma filterMap_distinct_congr [DecidableEq κ] {f : κ → Option α} {ks ks' : List κ}
    (h : ∀ k, (f k).isSome = true → (k ∈ ks ↔ k ∈ ks')) :
    (distinct ks).filterMap f = (distinct ks').filterMap f := by
  have hsome (ks : List κ) : (ks.filter fun k => (f k).isSome).filterMap f = ks.filterMap f := by
    rw [List.filterMap_filter]
    refine List.filterMap_congr fun k _ => ?_
    cases f k <;> rfl
  rw [← hsome, filter_distinct_congr h, hsome]

end Ledger

end OpcodeRecovery
