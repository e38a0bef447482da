import Mathlib.Tactic
import Mathlib.Data.Set.Card
import OpcodeRecovery.Proofs.Code.OffsetSet

/-!
Sets of offsets as finite sets.

A set of offsets is reached by marks, each of which makes an offset a member or no member
(`OffsetSet.Mark`). The offsets whose last mark made them members (`EndsIn`) are what is left of the
marks, as far as they lie below the bound.

* `OffsetSet.Packed`: there are as many words as the bound takes, and no bit is set at or beyond the
  bound. This is what the number of set bits and the equality of words rely on; every mark keeps it
  (`OffsetSet.Packed.mark`), so all sets that marks reach have it (`OffsetSet.packed_marked`).
* `OffsetSet.size_eq_countP`: the words count their bits, those beyond the bound among them.
* `OffsetSet.Packed.ext_contains`: packed sets with the same members are the same words.
* `OffsetSet.marked_refines`: membership, listing, size and equality of the sets that marks reach.
-/

namespace OpcodeRecovery

namespace OffsetSet

/-! ### Marks -/

/-- A mark makes an offset a member, or no member. -/
structure Mark where
  offset : ℕ
  member : Bool

/-- Marks an offset. -/
def mark (s : OffsetSet) (m : Mark) : OffsetSet :=
  if m.member then s.insert m.offset else s.erase m.offset

/-- The set that marks reach from the one without members. -/
def marked (bound : ℕ) (ms : List Mark) : OffsetSet := ms.foldl mark (empty bound)

/-- The last mark of an offset made it a member. -/
def EndsIn (ms : List Mark) (o : ℕ) : Prop :=
  ∃ earlier later, ms = earlier ++ ⟨o, true⟩ :: later ∧ ∀ m ∈ later, m.offset ≠ o

lemma not_endsIn_nil (o : ℕ) : ¬ EndsIn [] o := by
  rintro ⟨earlier, later, h, -⟩
  simp at h

/-- One more mark decides on its own offset and on no other. -/
lemma endsIn_append_singleton (ms : List Mark) (m : Mark) (o : ℕ) :
    EndsIn (ms ++ [m]) o ↔ if o = m.offset then m.member = true else EndsIn ms o := by
  obtain ⟨p, b⟩ := m
  constructor
  · rintro ⟨earlier, later, heq, hlater⟩
    rcases List.eq_nil_or_concat later with rfl | ⟨later, l, rfl⟩
    · obtain ⟨rfl, hm⟩ := List.append_inj' heq rfl
      simp only [List.cons.injEq, Mark.mk.injEq, and_true] at hm
      obtain ⟨rfl, rfl⟩ := hm
      simp
    · rw [List.concat_eq_append, ← List.cons_append, ← List.append_assoc] at heq
      obtain ⟨rfl, hm⟩ := List.append_inj' heq rfl
      obtain rfl := List.singleton_inj.mp hm
      have hne : o ≠ p := Ne.symm (hlater ⟨p, b⟩ (by simp))
      rw [if_neg hne]
      exact ⟨earlier, later, rfl, fun m hm => hlater m (by simp [hm])⟩
  · intro h
    split_ifs at h with ho
    · subst ho
      dsimp only at h
      subst h
      exact ⟨ms, [], rfl, by simp⟩
    · obtain ⟨earlier, later, rfl, hlater⟩ := h
      refine ⟨earlier, later ++ [⟨p, b⟩], by simp, ?_⟩
      intro m hm
      rcases List.mem_append.mp hm with hm | hm
      · exact hlater m hm
      · obtain rfl := List.mem_singleton.mp hm
        exact Ne.symm ho

/-! ### Packed sets -/

/-- There are as many words as the bound takes, and no bit is set at or beyond the bound. -/
structure Packed (s : OffsetSet) : Prop where
  size_words : s.words.size = (s.bound + wordSize - 1) / wordSize
  padding : ∀ o, s.bound ≤ o → s.bit o = false

lemma Packed.sized {s : OffsetSet} (hs : s.Packed) : s.Sized := by
  intro o ho
  rw [hs.size_words, wordSize]
  omega

/-- All bits fit into the words. -/
lemma Packed.bound_le {s : OffsetSet} (hs : s.Packed) : s.bound ≤ wordSize * s.words.size := by
  rw [hs.size_words, wordSize]
  omega

lemma packed_empty (bound : ℕ) : (empty bound).Packed where
  size_words := by rw [empty, Array.size_replicate]
  padding o _ := bit_empty bound o

lemma bound_mark (s : OffsetSet) (m : Mark) : (s.mark m).bound = s.bound := by
  rw [mark]
  split_ifs
  · exact bound_update s m.offset _
  · exact bound_update s m.offset _

lemma size_words_mark (s : OffsetSet) (m : Mark) : (s.mark m).words.size = s.words.size := by
  rw [mark]
  split_ifs
  · exact size_words_update s m.offset _
  · exact size_words_update s m.offset _

/-- A mark beyond the bound changes nothing. -/
lemma mark_of_le {s : OffsetSet} {m : Mark} (h : s.bound ≤ m.offset) : s.mark m = s := by
  rw [mark, insert, erase, update, update, if_neg (Nat.not_lt.mpr h), if_neg (Nat.not_lt.mpr h),
    ite_self]

/-- A mark below the bound writes the bit of its own offset and no other. -/
lemma Packed.bit_mark {s : OffsetSet} (hs : s.Packed) {m : Mark} (h : m.offset < s.bound) (o : ℕ) :
    (s.mark m).bit o = if o = m.offset then m.member else s.bit o := by
  rw [mark]
  cases m.member with
  | true => exact hs.sized.bit_insert h o
  | false => exact hs.sized.bit_erase h o

lemma Packed.mark {s : OffsetSet} (hs : s.Packed) (m : Mark) : (s.mark m).Packed := by
  by_cases h : m.offset < s.bound
  · refine ⟨by rw [size_words_mark, bound_mark, hs.size_words], fun o ho => ?_⟩
    rw [bound_mark] at ho
    rw [hs.bit_mark h, if_neg (by omega), hs.padding o ho]
  · rwa [mark_of_le (Nat.not_lt.mp h)]

/-- A mark decides on the membership of its own offset, if it lies below the bound, and of no
other. -/
lemma Packed.contains_mark {s : OffsetSet} (hs : s.Packed) (m : Mark) (o : ℕ) :
    (s.mark m).contains o = true
      ↔ o < s.bound ∧ if o = m.offset then m.member = true else s.contains o = true := by
  by_cases h : m.offset < s.bound
  · rw [contains_eq, contains_eq, bound_mark, hs.bit_mark h]
    grind
  · rw [mark_of_le (Nat.not_lt.mp h), contains_eq]
    grind

/-! ### What marks reach -/

lemma marked_append_singleton (n : ℕ) (ms : List Mark) (m : Mark) :
    marked n (ms ++ [m]) = (marked n ms).mark m :=
  List.foldl_append

lemma bound_marked (n : ℕ) (ms : List Mark) : (marked n ms).bound = n := by
  induction ms using List.reverseRecOn with
  | nil => rfl
  | append_singleton ms m ih => rw [marked_append_singleton, bound_mark, ih]

lemma packed_marked (n : ℕ) (ms : List Mark) : (marked n ms).Packed := by
  induction ms using List.reverseRecOn with
  | nil => exact packed_empty n
  | append_singleton ms m ih =>
      rw [marked_append_singleton]
      exact ih.mark m

/-- The members are the offsets below the bound whose last mark made them so. -/
lemma contains_marked (n : ℕ) (ms : List Mark) (o : ℕ) :
    (marked n ms).contains o = true ↔ o < n ∧ EndsIn ms o := by
  induction ms using List.reverseRecOn with
  | nil =>
      rw [marked, List.foldl_nil, contains_empty]
      simp [not_endsIn_nil]
  | append_singleton ms m ih =>
      rw [marked_append_singleton, (packed_marked n ms).contains_mark, bound_marked,
        endsIn_append_singleton, ih]
      grind

/-! ### Counting bits -/

/-- Words count the bits of all offsets they have room for. -/
lemma foldr_bitCount (ws : List UInt64) :
    ws.foldr (fun w n => bitCount w + n) 0
      = (List.range (wordSize * ws.length)).countP
        fun o => (ws.getD (o / wordSize) 0).toNat.testBit (o % wordSize) := by
  induction ws with
  | nil => rfl
  | cons w ws ih =>
      -- the bits of the first word, and those of the others one word further up
      have hfirst : bitCount w = (List.range wordSize).countP
          fun o => ((w :: ws).getD (o / wordSize) 0).toNat.testBit (o % wordSize) := by
        refine List.countP_congr fun o ho => ?_
        have hlt := List.mem_range.mp ho
        rw [Nat.div_eq_of_lt hlt, Nat.mod_eq_of_lt hlt, List.getD_cons_zero]
      rw [List.foldr_cons, ih, hfirst, List.length_cons, Nat.mul_succ,
        Nat.add_comm (wordSize * ws.length), List.range_add, List.countP_append, List.countP_map,
        Nat.add_right_inj]
      refine List.countP_congr fun o _ => ?_
      rw [Function.comp_apply, Nat.add_div_left o (by decide), Nat.add_mod_left,
        List.getD_cons_succ]

lemma size_eq_countP (s : OffsetSet) :
    s.size = (List.range (wordSize * s.words.size)).countP s.bit := by
  rw [size, foldr_bitCount, Array.length_toList]
  refine List.countP_congr fun o _ => ?_
  rw [bit, Array.getD_eq_getD_getElem?, List.getD_eq_getElem?_getD, Array.getElem?_toList]

/-- The number of set bits is the number of members. -/
lemma Packed.size_eq {s : OffsetSet} (hs : s.Packed) : s.size = s.toList.length := by
  obtain ⟨k, hk⟩ := Nat.exists_eq_add_of_le hs.bound_le
  rw [size_eq_countP, hk, List.range_add, List.countP_append, List.countP_map, toList,
    ← List.countP_eq_length_filter]
  have hmembers : (List.range s.bound).countP s.bit = (List.range s.bound).countP s.contains := by
    refine List.countP_congr fun o ho => ?_
    rw [contains_eq, decide_eq_true (List.mem_range.mp ho), Bool.true_and]
  have hpadding : (List.range k).countP (s.bit ∘ (s.bound + ·)) = 0 := by
    refine List.countP_eq_zero.mpr fun o _ => ?_
    rw [Function.comp_apply, hs.padding _ (Nat.le_add_right _ _)]
    exact Bool.false_ne_true
  rw [hmembers, hpadding, Nat.add_zero]

/-! ### Equality -/

/-- Packed sets with the same members are made of the same words. -/
lemma Packed.ext_contains {s t : OffsetSet} (hs : s.Packed) (ht : t.Packed)
    (hbound : s.bound = t.bound) (h : ∀ o, s.contains o = t.contains o) : s = t := by
  have hbit (o : ℕ) : s.bit o = t.bit o := by
    by_cases ho : o < s.bound
    · have hmember := h o
      rwa [contains_eq, contains_eq, ← hbound, decide_eq_true ho, Bool.true_and,
        Bool.true_and] at hmember
    · rw [hs.padding o (Nat.not_lt.mp ho), ht.padding o (hbound ▸ Nat.not_lt.mp ho)]
  have hsize : s.words.size = t.words.size := by rw [hs.size_words, ht.size_words, hbound]
  have hwords : s.words = t.words := by
    refine Array.ext hsize fun i hi hi' => UInt64.toNat_inj.mp (Nat.eq_of_testBit_eq fun j => ?_)
    by_cases hj : j < wordSize
    · -- the bit of the offset that stands at this place of this word
      have hplace := hbit (wordSize * i + j)
      rw [bit, bit, Nat.mul_add_div (by decide), Nat.div_eq_of_lt hj, Nat.add_zero,
        Nat.mul_add_mod, Nat.mod_eq_of_lt hj] at hplace
      simpa [hi, hi'] using hplace
    · have hpow : 2 ^ 64 ≤ 2 ^ j := Nat.pow_le_pow_right (by omega) (Nat.not_lt.mp hj)
      rw [Nat.testBit_lt_two_pow ((UInt64.toNat_lt _).trans_le hpow),
        Nat.testBit_lt_two_pow ((UInt64.toNat_lt _).trans_le hpow)]
  obtain ⟨bound, words⟩ := s
  obtain ⟨bound', words'⟩ := t
  exact congrArg₂ OffsetSet.mk hbound hwords

/-- **Packed words as a finite set**: whatever marks were made, in any order and at any offsets, the
members are the offsets below the bound whose last mark made them so. These are listed in ascending
order, the set bits are as many, and two sets of one bound are the same words if and only if they
have the same members. -/
theorem marked_refines (n : ℕ) (ms : List Mark) :
    (∀ o, (marked n ms).contains o = true ↔ o < n ∧ EndsIn ms o)
    ∧ (∀ o, o ∈ (marked n ms).toList ↔ o < n ∧ EndsIn ms o)
    ∧ (marked n ms).toList.Pairwise (· < ·)
    ∧ (marked n ms).size = {o | o < n ∧ EndsIn ms o}.ncard
    ∧ ∀ ms', marked n ms = marked n ms'
      ↔ ∀ o, (marked n ms).contains o = (marked n ms').contains o := by
  have hlisted (o : ℕ) : o ∈ (marked n ms).toList ↔ o < n ∧ EndsIn ms o :=
    mem_toList.trans (contains_marked n ms o)
  refine ⟨contains_marked n ms, hlisted, pairwise_toList _, ?_, fun ms' => ⟨?_, fun h => ?_⟩⟩
  · have hnodup : (marked n ms).toList.Nodup := (pairwise_toList _).imp Nat.ne_of_lt
    have hset : {o | o < n ∧ EndsIn ms o} = ((marked n ms).toList.toFinset : Set ℕ) := by
      ext o
      rw [Set.mem_ofPred_eq, Finset.mem_coe, List.mem_toFinset, hlisted]
    rw [(packed_marked n ms).size_eq, hset, Set.ncard_coe_finset, List.toFinset_card_of_nodup hnodup]
  · intro h o
    rw [h]
  · have hbound : (marked n ms).bound = (marked n ms').bound := by rw [bound_marked, bound_marked]
    exact (packed_marked n ms).ext_contains (packed_marked n ms') hbound h

end OffsetSet

end OpcodeRecovery
