import Mathlib.Data.Nat.Bitwise
import Mathlib.Tactic
import OpcodeRecovery.Code.OffsetSet

/-!
Sets of offsets, read through their members.

A bit of a packed word says whether its offset is a member (`testBit_eq_and_mask`). As long as
there are enough words for the bound (`OffsetSet.Sized`, kept by every insertion), an insertion
changes the membership of its own offset only, and `OffsetSet.contains_ofList` follows by
induction on the list. `OffsetSet.mem_toList` and `OffsetSet.pairwise_toList` say that the members
are listed, in ascending order.
-/

namespace OpcodeRecovery

namespace OffsetSet

/-! ### Words -/

lemma toNat_mask (o : ℕ) : (mask o).toNat = 2 ^ (o % wordSize) := by
  have hmod : o % wordSize < 64 := Nat.mod_lt o (by decide)
  have hpow : 2 ^ (o % wordSize) < 2 ^ 64 := Nat.pow_lt_pow_right (by omega) hmod
  rw [mask, UInt64.toNat_shiftLeft, UInt64.toNat_ofNat', UInt64.toNat_one,
    Nat.mod_eq_of_lt (show o % wordSize < 2 ^ 64 by omega), Nat.mod_eq_of_lt hmod,
    Nat.shiftLeft_eq, Nat.one_mul, Nat.mod_eq_of_lt hpow]

/-- A word meets the mask of an offset exactly in the offset's bit. -/
lemma testBit_eq_and_mask (w : UInt64) (o : ℕ) :
    ((w &&& mask o) != 0) = w.toNat.testBit (o % wordSize) := by
  have hand : (w &&& mask o).toNat
      = (w.toNat.testBit (o % wordSize)).toNat * 2 ^ (o % wordSize) := by
    rw [UInt64.toNat_and, toNat_mask, Nat.and_two_pow]
  cases hbit : w.toNat.testBit (o % wordSize) with
  | false =>
      rw [hbit, Bool.toNat_false, Nat.zero_mul] at hand
      rw [UInt64.toNat_inj.mp (show _ = (0 : UInt64).toNat from hand)]
      rfl
  | true =>
      rw [hbit, Bool.toNat_true, Nat.one_mul] at hand
      have hpos : 0 < 2 ^ (o % wordSize) := Nat.two_pow_pos _
      refine bne_iff_ne.mpr fun h => ?_
      rw [h, UInt64.toNat_zero] at hand
      omega

/-- The bit that stands for an offset. -/
def bit (s : OffsetSet) (o : ℕ) : Bool :=
  (s.words.getD (o / wordSize) 0).toNat.testBit (o % wordSize)

lemma contains_eq (s : OffsetSet) (o : ℕ) : s.contains o = (decide (o < s.bound) && s.bit o) := by
  rw [contains, testBit_eq_and_mask, bit]

lemma lt_of_contains {s : OffsetSet} {o : ℕ} (h : s.contains o = true) : o < s.bound := by
  rw [contains_eq, Bool.and_eq_true, decide_eq_true_eq] at h
  exact h.1

/-! ### Insertions -/

/-- There is a bit for every offset below the bound. -/
def Sized (s : OffsetSet) : Prop := ∀ o < s.bound, o / wordSize < s.words.size

lemma sized_empty (bound : ℕ) : (empty bound).Sized := by
  intro o ho
  simp only [empty, wordSize, Array.size_replicate] at ho ⊢
  omega

lemma bound_update (s : OffsetSet) (o : ℕ) (f : UInt64 → UInt64) :
    (s.update o f).bound = s.bound := by
  rw [update]
  split_ifs <;> rfl

@[simp] lemma bound_insert (s : OffsetSet) (o : ℕ) : (s.insert o).bound = s.bound :=
  bound_update s o _

lemma size_words_update (s : OffsetSet) (o : ℕ) (f : UInt64 → UInt64) :
    (s.update o f).words.size = s.words.size := by
  rw [update]
  split_ifs <;> simp

lemma Sized.insert {s : OffsetSet} (hs : s.Sized) (o : ℕ) : (s.insert o).Sized := by
  intro o' ho'
  rw [bound_insert] at ho'
  rw [OffsetSet.insert, size_words_update]
  exact hs o' ho'

/-- Two offsets of one word are the same offset if they have the same bit. -/
lemma mod_eq_mod_iff {o o' : ℕ} (hword : o / wordSize = o' / wordSize) :
    o' % wordSize = o % wordSize ↔ o' = o := by
  constructor
  · intro hmod
    rw [← Nat.div_add_mod o wordSize, ← Nat.div_add_mod o' wordSize, hword, hmod]
  · rintro rfl
    rfl

/-- An update that writes one bit of a word shows at its own offset and at no other. -/
lemma Sized.bit_update {s : OffsetSet} (hs : s.Sized) {o : ℕ} (ho : o < s.bound) {b : Bool}
    {f : UInt64 → UInt64}
    (hf : ∀ w i, (f w).toNat.testBit i = if i = o % wordSize then b else w.toNat.testBit i)
    (o' : ℕ) : (s.update o f).bit o' = if o' = o then b else s.bit o' := by
  have hsize := hs o ho
  rw [update, if_pos ho, bit, bit]
  simp only [Array.getD_eq_getD_getElem?, Array.getElem?_modify]
  by_cases hword : o / wordSize = o' / wordSize
  · -- the same word: the bits of `o` and `o'` are one only if both are the same offset
    have hsame := mod_eq_mod_iff hword
    rw [hword] at hsize ⊢
    rw [if_pos rfl, Array.getElem?_eq_getElem hsize]
    simp only [Option.map_some, Option.getD_some, hf, hsame]
  · have hne : o' ≠ o := by
      rintro rfl
      exact hword rfl
    rw [if_neg hword, if_neg hne]

/-- An insertion sets the bit of its own offset and no other. -/
lemma Sized.bit_insert {s : OffsetSet} (hs : s.Sized) {o : ℕ} (ho : o < s.bound) (o' : ℕ) :
    (s.insert o).bit o' = if o' = o then true else s.bit o' := by
  refine hs.bit_update ho (fun w i => ?_) o'
  rw [UInt64.toNat_or, toNat_mask, Nat.testBit_or, Nat.testBit_two_pow]
  by_cases hi : i = o % wordSize
  · simp [hi]
  · simp [hi, Ne.symm hi]

/-- An erasure clears the bit of its own offset and no other. -/
lemma Sized.bit_erase {s : OffsetSet} (hs : s.Sized) {o : ℕ} (ho : o < s.bound) (o' : ℕ) :
    (s.erase o).bit o' = if o' = o then false else s.bit o' := by
  refine hs.bit_update ho (fun w i => ?_) o'
  rw [UInt64.toNat_and, ← UInt64.toNat_toBitVec (~~~mask o), UInt64.toBitVec_not, Nat.testBit_and,
    BitVec.testBit_toNat, BitVec.getLsbD_not, ← BitVec.testBit_toNat, UInt64.toNat_toBitVec,
    toNat_mask, Nat.testBit_two_pow]
  by_cases hi : i = o % wordSize
  · simp [hi]
  · by_cases hlt : i < 64
    · simp [hi, hlt, Ne.symm hi]
    · -- beyond the word there is nothing to clear
      have hbeyond : w.toNat.testBit i = false :=
        Nat.testBit_lt_two_pow (w.toNat_lt.trans_le (Nat.pow_le_pow_right (by omega) (by omega)))
      simp [hi, hbeyond]

/-- An insertion adds its own offset, if it lies below the bound, and nothing else. -/
lemma Sized.contains_insert {s : OffsetSet} (hs : s.Sized) (o o' : ℕ) :
    (s.insert o).contains o' = true ↔ s.contains o' = true ∨ o' = o ∧ o < s.bound := by
  by_cases ho : o < s.bound
  · rw [contains_eq, contains_eq, bound_insert, hs.bit_insert ho]
    grind
  · rw [OffsetSet.insert, update, if_neg ho]
    simp [ho]

/-! ### Sets of lists -/

lemma foldl_insert_bound (s : OffsetSet) (os : List ℕ) :
    (os.foldl OffsetSet.insert s).bound = s.bound := by
  induction os generalizing s with
  | nil => rfl
  | cons o os ih => rw [List.foldl_cons, ih, bound_insert]

lemma bound_ofList (bound : ℕ) (os : List ℕ) : (ofList bound os).bound = bound :=
  foldl_insert_bound (empty bound) os

lemma bit_empty (bound o : ℕ) : (empty bound).bit o = false := by
  have hword : (empty bound).words.getD (o / wordSize) 0 = 0 := by
    rw [empty, Array.getD_eq_getD_getElem?, Array.getElem?_replicate]
    split_ifs <;> rfl
  rw [bit, hword, UInt64.toNat_zero, Nat.zero_testBit]

lemma contains_empty (bound o : ℕ) : (empty bound).contains o = false := by
  rw [contains_eq, bit_empty, Bool.and_false]

lemma Sized.contains_foldl_insert {s : OffsetSet} (hs : s.Sized) (os : List ℕ) (o : ℕ) :
    (os.foldl OffsetSet.insert s).contains o = true
      ↔ s.contains o = true ∨ o ∈ os ∧ o < s.bound := by
  induction os generalizing s with
  | nil => simp
  | cons p os ih =>
      rw [List.foldl_cons, ih (hs.insert p), hs.contains_insert, bound_insert, List.mem_cons]
      grind

/-- **The members of a set of a list** are the offsets of the list below the bound. -/
theorem contains_ofList (bound : ℕ) (os : List ℕ) (o : ℕ) :
    (ofList bound os).contains o = true ↔ o ∈ os ∧ o < bound := by
  rw [ofList, (sized_empty bound).contains_foldl_insert, contains_empty]
  simp [empty]

/-! ### Listings -/

/-- What is listed are the members. -/
lemma mem_toList {s : OffsetSet} {o : ℕ} : o ∈ s.toList ↔ s.contains o = true := by
  rw [toList, List.mem_filter, List.mem_range, and_iff_right_iff_imp]
  exact lt_of_contains

lemma pairwise_toList (s : OffsetSet) : s.toList.Pairwise (· < ·) :=
  List.pairwise_lt_range.filter _

end OffsetSet

end OpcodeRecovery
