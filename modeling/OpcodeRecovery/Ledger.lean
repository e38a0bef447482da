/-!
Ledgers: finite maps kept as lists of pairs with strictly ascending keys.

Keys are ordered through `Ranked.rank`, an injective numbering. Since the order is part of
the type, a ledger is determined by its look-ups: counters, histograms, tables and caches
that are filled in different orders end up as the same value.

* `Ledger.upsert` writes the value of one key from the value it had.
* `Ledger.get?` looks a key up; `Ledger.keys` lists the keys in ascending order.
* `Ledger.mergeWith` adds one ledger to another, combining the values of shared keys.
* `Ledger.get?_upsert_self` and `Ledger.get?_upsert_of_ne`: a write shows at its own key and
  nowhere else.
* `Ledger.ext_get?`: ledgers with the same look-ups are equal.
-/

namespace OpcodeRecovery

/-- A type whose values are numbered, and thereby ordered. -/
class Ranked (κ : Type) where
  /-- The place of a value in the order. -/
  rank : κ → Nat
  /-- Different values have different places. -/
  rank_injective : ∀ a b : κ, rank a = rank b → a = b

export Ranked (rank)

instance : Ranked UInt8 where
  rank b := b.toNat
  rank_injective _ _ h := UInt8.toNat_inj.1 h

/-- A finite map as a list of pairs with strictly ascending keys. -/
structure Ledger (κ ν : Type) [Ranked κ] where
  entries : List (κ × ν)
  ascending : entries.Pairwise fun a b => rank a.1 < rank b.1

namespace Ledger

variable {κ ν : Type} [Ranked κ]

/-! ### Writing one key -/

/-- Writes the value of `k` into a list of pairs, from the value the key had. -/
def upsertEntries (k : κ) (f : Option ν → ν) : List (κ × ν) → List (κ × ν)
  | [] => [(k, f none)]
  | (a, v) :: rest =>
    if rank k < rank a then (k, f none) :: (a, v) :: rest
    else if rank k = rank a then (a, f (some v)) :: rest
    else (a, v) :: upsertEntries k f rest

/-- The keys after a write are the keys before it and the one written. -/
theorem mem_upsertEntries {k : κ} {f : Option ν → ν} {es : List (κ × ν)} {e : κ × ν}
    (h : e ∈ upsertEntries k f es) : rank e.1 = rank k ∨ ∃ e' ∈ es, e'.1 = e.1 := by
  induction es with
  | nil =>
    simp only [upsertEntries, List.mem_singleton] at h
    exact Or.inl (by rw [h])
  | cons p rest ih =>
    obtain ⟨a, v⟩ := p
    simp only [upsertEntries] at h
    split at h
    · rcases List.mem_cons.1 h with rfl | h
      · exact Or.inl rfl
      · exact Or.inr ⟨e, h, rfl⟩
    · split at h
      · rename_i heq
        rcases List.mem_cons.1 h with rfl | h
        · exact Or.inl heq.symm
        · exact Or.inr ⟨e, List.mem_cons_of_mem _ h, rfl⟩
      · rcases List.mem_cons.1 h with rfl | h
        · exact Or.inr ⟨(a, v), List.mem_cons_self, rfl⟩
        · rcases ih h with h | ⟨e', he', heq⟩
          · exact Or.inl h
          · exact Or.inr ⟨e', List.mem_cons_of_mem _ he', heq⟩

/-- Writing a key keeps the keys ascending. -/
theorem pairwise_upsertEntries (k : κ) (f : Option ν → ν) {es : List (κ × ν)}
    (h : es.Pairwise fun a b => rank a.1 < rank b.1) :
    (upsertEntries k f es).Pairwise fun a b => rank a.1 < rank b.1 := by
  induction es with
  | nil => simp [upsertEntries]
  | cons p rest ih =>
    obtain ⟨a, v⟩ := p
    obtain ⟨hhead, htail⟩ := List.pairwise_cons.1 h
    simp only [upsertEntries]
    split
    · rename_i hlt
      refine List.pairwise_cons.2 ⟨fun b hb => ?_, h⟩
      rcases List.mem_cons.1 hb with rfl | hb
      · exact hlt
      · exact Nat.lt_trans hlt (hhead b hb)
    · split
      · exact List.pairwise_cons.2 ⟨hhead, htail⟩
      · refine List.pairwise_cons.2 ⟨fun b hb => ?_, ih htail⟩
        rcases mem_upsertEntries hb with hk | ⟨b', hb', heq⟩
        · simp only at *; omega
        · have := hhead b' hb'
          rw [heq] at this
          exact this

/-! ### Operations -/

/-- The ledger without entries. -/
def empty : Ledger κ ν := ⟨[], List.Pairwise.nil⟩

instance : Inhabited (Ledger κ ν) := ⟨empty⟩

instance [DecidableEq κ] [DecidableEq ν] : DecidableEq (Ledger κ ν) := fun a b =>
  decidable_of_iff (a.entries = b.entries)
    ⟨fun h => by cases a; cases b; simp_all, fun h => h ▸ rfl⟩

/-- Writes the value of one key from the value it had, if it had one. -/
def upsert (l : Ledger κ ν) (k : κ) (f : Option ν → ν) : Ledger κ ν :=
  ⟨upsertEntries k f l.entries, pairwise_upsertEntries k f l.ascending⟩

/-- Writes one key, whatever value it had. -/
def insert (l : Ledger κ ν) (k : κ) (v : ν) : Ledger κ ν :=
  l.upsert k fun _ => v

/-- The value of a key. -/
def get? (l : Ledger κ ν) (k : κ) : Option ν :=
  (l.entries.find? fun e => rank e.1 == rank k).map (·.2)

/-- Whether a key has a value. -/
def contains (l : Ledger κ ν) (k : κ) : Bool :=
  (l.get? k).isSome

/-- The keys, ascending. -/
def keys (l : Ledger κ ν) : List κ := l.entries.map (·.1)

/-- The values, by ascending key. -/
def values (l : Ledger κ ν) : List ν := l.entries.map (·.2)

/-- The number of keys. -/
def size (l : Ledger κ ν) : Nat := l.entries.length

/-- Whether no key has a value. -/
def isEmpty (l : Ledger κ ν) : Bool := l.entries.isEmpty

/-- The ledger of a list of pairs; of two pairs with one key the later counts. -/
def ofList (es : List (κ × ν)) : Ledger κ ν :=
  es.foldl (fun l e => l.insert e.1 e.2) empty

/-- The distinct members of a list, ascending. -/
def distinct (ks : List κ) : List κ :=
  (ofList (ks.map fun k => (k, ()))).keys

/-- Adds the entries of `b` to `a`; where both have a key, the values are combined. -/
def mergeWith (f : ν → ν → ν) (a b : Ledger κ ν) : Ledger κ ν :=
  b.entries.foldl
    (fun l e => l.upsert e.1 fun
      | none => e.2
      | some v => f v e.2)
    a

/-- Applies a function to every value. -/
def map {μ : Type} (f : κ → ν → μ) (l : Ledger κ ν) : Ledger κ μ :=
  ⟨l.entries.map fun e => (e.1, f e.1 e.2),
    List.pairwise_map.2 (l.ascending.imp fun h => h)⟩

/-! ### Look-ups -/

/-- The first pair decides, or the look-up goes on behind it. -/
theorem get?_mk_cons {a : κ} {v : ν} {rest : List (κ × ν)}
    {h : ((a, v) :: rest).Pairwise fun a b => rank a.1 < rank b.1} (k : κ) :
    (Ledger.mk ((a, v) :: rest) h).get? k
      = if rank a = rank k then some v
        else (Ledger.mk rest (List.pairwise_cons.1 h).2).get? k := by
  by_cases heq : rank a = rank k <;> simp [get?, heq]

/-- A key below all keys of a ledger has no value there. -/
theorem get?_eq_none_of_lt {l : Ledger κ ν} {k : κ} (h : ∀ e ∈ l.entries, rank k < rank e.1) :
    l.get? k = none := by
  simp only [get?, Option.map_eq_none_iff, List.find?_eq_none, beq_iff_eq]
  intro e he heq
  exact absurd (h e he) (by omega)

@[simp]
theorem get?_empty (k : κ) : (empty : Ledger κ ν).get? k = none := rfl

/-- A write sets the value of its key. -/
@[simp]
theorem get?_upsert_self (l : Ledger κ ν) (k : κ) (f : Option ν → ν) :
    (l.upsert k f).get? k = some (f (l.get? k)) := by
  obtain ⟨es, h⟩ := l
  induction es with
  | nil => simp [upsert, upsertEntries, get?]
  | cons p rest ih =>
    obtain ⟨a, v⟩ := p
    obtain ⟨hhead, htail⟩ := List.pairwise_cons.1 h
    simp only [upsert, upsertEntries]
    by_cases hlt : rank k < rank a
    · have hnone : (Ledger.mk ((a, v) :: rest) h).get? k = none :=
        get?_eq_none_of_lt fun e he => by
          rcases List.mem_cons.1 he with rfl | he
          · exact hlt
          · exact Nat.lt_trans hlt (hhead e he)
      simp only [hlt, if_true, hnone]
      simp [get?]
    · by_cases heq : rank k = rank a
      · simp [get?, heq]
      · have hne : ¬ rank a = rank k := fun h => heq h.symm
        have := ih htail
        simp only [upsert, get?] at this
        simp [get?, hlt, heq, hne, this]

/-- A write leaves the other keys alone. -/
theorem get?_upsert_of_ne (l : Ledger κ ν) {k k' : κ} (f : Option ν → ν) (hne : k' ≠ k) :
    (l.upsert k f).get? k' = l.get? k' := by
  have hrank : ¬ rank k = rank k' := fun h => hne (Ranked.rank_injective k k' h).symm
  obtain ⟨es, h⟩ := l
  induction es with
  | nil => simp [upsert, upsertEntries, get?, hrank]
  | cons p rest ih =>
    obtain ⟨a, v⟩ := p
    simp only [upsert, upsertEntries]
    by_cases hlt : rank k < rank a
    · simp [get?, hlt, hrank]
    · by_cases heq : rank k = rank a
      · have hne' : ¬ rank a = rank k' := heq ▸ hrank
        simp [get?, heq, hne']
      · have := ih (List.pairwise_cons.1 h).2
        simp only [upsert, get?] at this
        simp only [get?, if_neg hlt, if_neg heq]
        by_cases ha : rank a = rank k'
        · simp [List.find?_cons_of_pos, ha]
        · simpa [List.find?_cons_of_neg, ha] using this

/-- Ledgers with the same look-ups are equal. -/
theorem ext_get? {a b : Ledger κ ν} (h : ∀ k, a.get? k = b.get? k) : a = b := by
  obtain ⟨as, ha⟩ := a
  obtain ⟨bs, hb⟩ := b
  suffices as = bs by subst this; rfl
  induction as generalizing bs with
  | nil =>
    cases bs with
    | nil => rfl
    | cons q bs =>
      obtain ⟨k, v⟩ := q
      have := h k
      rw [get?_mk_cons] at this
      simp [get?] at this
  | cons p as ih =>
    obtain ⟨i, x⟩ := p
    cases bs with
    | nil =>
      have := h i
      rw [get?_mk_cons] at this
      simp [get?] at this
    | cons q bs =>
      obtain ⟨j, y⟩ := q
      obtain ⟨hi, has⟩ := List.pairwise_cons.1 ha
      obtain ⟨hj, hbs⟩ := List.pairwise_cons.1 hb
      -- a first key that were the lower of the two would be missing on the other side
      have hij : rank i = rank j := by
        have h₁ := h i
        have h₂ := h j
        rw [get?_mk_cons, get?_mk_cons] at h₁ h₂
        rcases Nat.lt_trichotomy (rank i) (rank j) with hlt | heq | hlt
        · rw [if_pos rfl, if_neg (by omega), get?_eq_none_of_lt] at h₁
          · cases h₁
          · exact fun e he => Nat.lt_trans hlt (hj e he)
        · exact heq
        · rw [if_pos (rfl : rank j = rank j), if_neg (by omega), get?_eq_none_of_lt] at h₂
          · cases h₂
          · exact fun e he => Nat.lt_trans hlt (hi e he)
      obtain rfl := Ranked.rank_injective i j hij
      have hxy := h i
      rw [get?_mk_cons, get?_mk_cons, if_pos rfl, if_pos rfl] at hxy
      obtain rfl := Option.some.inj hxy
      have htails : as = bs := ih has bs hbs fun k => by
        have hk := h k
        rw [get?_mk_cons, get?_mk_cons] at hk
        by_cases hik : rank i = rank k
        · exact (get?_eq_none_of_lt fun e he => hik ▸ hi e he).trans
            (get?_eq_none_of_lt fun e he => hik ▸ hj e he).symm
        · simpa only [if_neg hik] using hk
      rw [htails]

/-! ### Counting -/

/-- Adds `n` to the count of a key. -/
def add (l : Ledger κ Nat) (k : κ) (n : Nat) : Ledger κ Nat :=
  l.upsert k fun old => old.getD 0 + n

/-- The sum of some counts. -/
def sum (ns : List Nat) : Nat := ns.foldr (· + ·) 0

/-- The sum of all counts. -/
def total (l : Ledger κ Nat) : Nat := sum l.values

/-- Of pairs of a key and a count, the key with the largest count, the first such key among
several. -/
def dominantEntry (es : List (κ × Nat)) : Option κ :=
  (es.foldl
    (fun (best : Option (κ × Nat)) e =>
      match best with
      | some (k, n) => if n ≥ e.2 then some (k, n) else some e
      | none => some e)
    none).map (·.1)

/-- The key with the largest count, the lowest such key among several. -/
def dominant (l : Ledger κ Nat) : Option κ := dominantEntry l.entries

end Ledger

end OpcodeRecovery
