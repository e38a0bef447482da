import Mathlib.Tactic
import OpcodeRecovery.Bytes.Cursor
import OpcodeRecovery.Proofs.Bytes.SevenBit

/-!
Seven-bit integers at a cursor: which bytes are read as a number, which are refused, and how far the
cursor moves.

* `SevenBit.Settles` says it of the bytes ahead alone: a number ends at a byte without a mark, four
  marked bytes may stand before it, and a fifth byte keeps to its four low bits. Reading does what it
  says (`Cursor.settles_iff`), and it looks at five bytes (`SevenBit.Settles.of_take_eq`).
* `Cursor.sevenBit_exact` spells this out for each answer, and joins it with what is read where a
  number was written.
-/

namespace OpcodeRecovery

namespace SevenBit

/-! ### The bytes of a number -/

/-- Bytes that make a number: marked ones, four at most, and a last one that is not marked and, as
the fifth, below sixteen. -/
structure Terminated (marked : Bytes) (last : UInt8) : Prop where
  marks : ∀ b ∈ marked, 128 ≤ b.toNat
  length_le : marked.length ≤ 4
  last_lt : last.toNat < 128
  fifth_lt : marked.length = 4 → last.toNat < 16

/-- Bytes that are beyond any number: four marked ones and a fifth of sixteen or more. -/
structure Excessive (marked : Bytes) (fifth : UInt8) : Prop where
  marks : ∀ b ∈ marked, 128 ≤ b.toNat
  length_eq : marked.length = 4
  le_fifth : 16 ≤ fifth.toNat

/-- Bytes that end in a number: marked ones, four at most, and nothing behind them. -/
structure Unfinished (bs : Bytes) : Prop where
  marks : ∀ b ∈ bs, 128 ≤ b.toNat
  length_le : bs.length ≤ 4

lemma Terminated.numeral {marked : Bytes} {last : UInt8} (h : Terminated marked last) :
    Numeral (marked ++ [last]) (weight (marked ++ [last])) :=
  (numeral_append_iff h.marks h.last_lt h.length_le).mpr ⟨rfl, h.fifth_lt⟩

lemma Numeral.exists_terminated {bs : Bytes} {v : ℕ} (h : Numeral bs v) :
    ∃ marked last, bs = marked ++ [last] ∧ Terminated marked last ∧ v = weight (marked ++ [last]) := by
  obtain ⟨marked, last, rfl, hmarked, hlast⟩ := h.marks
  have hlen : marked.length ≤ 4 := by
    have hle := h.length_le
    rw [List.length_append, List.length_singleton] at hle
    omega
  obtain ⟨hv, hfifth⟩ := (numeral_append_iff hmarked hlast hlen).mp h
  exact ⟨marked, last, rfl, ⟨hmarked, hlen, hlast, hfifth⟩, hv⟩

/-! ### What bytes come to -/

/-- What the bytes ahead of a position come to as a number, and how many of them it takes. -/
inductive Settles (position : ℕ) (ahead : Bytes) : Except Error ℕ → ℕ → Prop where
  | value {marked : Bytes} {last : UInt8} (hahead : marked ++ [last] <+: ahead)
      (h : Terminated marked last) :
      Settles position ahead (.ok (weight (marked ++ [last]))) (marked.length + 1)
  | overflow {marked : Bytes} {fifth : UInt8} (hahead : marked ++ [fifth] <+: ahead)
      (h : Excessive marked fifth) :
      Settles position ahead (.error (.format (.sevenBitOverflow (position + 4)))) 5
  | truncated (h : Unfinished ahead) :
      Settles position ahead (.error .outOfBounds) ahead.length

lemma Settles.le_five {position n : ℕ} {ahead : Bytes} {r : Except Error ℕ}
    (h : Settles position ahead r n) : n ≤ 5 := by
  cases h with
  | value hahead h => exact Nat.succ_le_succ h.length_le
  | overflow hahead h => exact Nat.le_refl 5
  | truncated h => exact h.length_le.trans (by decide)

/-- Only the first five bytes matter. -/
lemma Settles.of_take_eq {position n : ℕ} {ahead ahead' : Bytes} {r : Except Error ℕ}
    (h : Settles position ahead r n) (htake : ahead'.take 5 = ahead.take 5) :
    Settles position ahead' r n := by
  have hmove : ∀ {front : Bytes}, front <+: ahead → front.length ≤ 5 → front <+: ahead' := by
    intro front hfront hlen
    have hfive : front <+: ahead.take 5 := List.prefix_take_iff.mpr ⟨hfront, hlen⟩
    rw [← htake] at hfive
    exact (List.prefix_take_iff.mp hfive).1
  cases h with
  | value hahead h =>
      refine .value (hmove hahead ?_) h
      rw [List.length_append, List.length_singleton]
      exact Nat.succ_le_succ h.length_le
  | overflow hahead h =>
      refine .overflow (hmove hahead ?_) h
      rw [List.length_append, List.length_singleton, h.length_eq]
  | truncated h =>
      -- fewer than five bytes are all of them, on both sides
      have hshort := h.length_le
      rw [List.take_of_length_le (l := ahead) (by omega)] at htake
      have hlen := congrArg List.length htake
      rw [List.length_take] at hlen
      rw [List.take_of_length_le (by omega)] at htake
      subst htake
      exact .truncated h

end SevenBit

namespace Cursor

open SevenBit

/-! ### Reading at a cursor -/

lemma position_consume {c : Cursor} {n : ℕ} (h : n ≤ c.rest.length) :
    (c.consume n).position = c.position + n := by
  have hle := c.position_le
  rw [rest, List.length_drop] at h
  exact Nat.min_eq_left (by omega)

lemma sevenBit_of_settles {c : Cursor} {r : Except Error ℕ} {n : ℕ}
    (h : Settles c.position c.rest r n) : c.sevenBit = (r, c.consume n) ∧ n ≤ c.rest.length := by
  cases h with
  | @value marked last hahead h =>
      have hlen := hahead.length_le
      rw [List.length_append, List.length_singleton] at hlen
      obtain ⟨rest, hrest⟩ := hahead
      have hdecode : decode c.rest = .value (weight (marked ++ [last])) (marked.length + 1) rest :=
        decode_eq_value_iff.mpr ⟨marked ++ [last], hrest.symm, by simp, h.numeral⟩
      rw [Cursor.sevenBit, hdecode]
      exact ⟨rfl, hlen⟩
  | @overflow marked fifth hahead h =>
      have hlen := hahead.length_le
      rw [List.length_append, List.length_singleton, h.length_eq] at hlen
      have hdecode : decode c.rest = .overflow 5 :=
        decode_eq_overflow_iff.mpr ⟨rfl, marked, fifth, hahead, h.length_eq, h.marks, h.le_fifth⟩
      rw [Cursor.sevenBit, hdecode]
      exact ⟨rfl, hlen⟩
  | truncated h =>
      have hdecode : decode c.rest = .truncated c.rest.length :=
        decode_eq_truncated_iff.mpr ⟨rfl, h.length_le, h.marks⟩
      rw [Cursor.sevenBit, hdecode]
      exact ⟨rfl, Nat.le_refl _⟩

/-- Whatever bytes are ahead, they settle what is read. -/
lemma exists_settles (c : Cursor) : ∃ r n, Settles c.position c.rest r n := by
  cases hdecode : decode c.rest with
  | value v n rest =>
      obtain ⟨front, hrest, -, hnumeral⟩ := decode_eq_value_iff.mp hdecode
      obtain ⟨marked, last, rfl, hterminated, -⟩ := hnumeral.exists_terminated
      exact ⟨_, _, .value ⟨rest, hrest.symm⟩ hterminated⟩
  | truncated n =>
      obtain ⟨rfl, hlen, hmarked⟩ := decode_eq_truncated_iff.mp hdecode
      exact ⟨_, _, .truncated ⟨hmarked, hlen⟩⟩
  | overflow n =>
      obtain ⟨-, marked, fifth, hahead, hlen, hmarked, h16⟩ := decode_eq_overflow_iff.mp hdecode
      exact ⟨_, _, .overflow hahead ⟨hmarked, hlen, h16⟩⟩

/-- A number is read as the bytes ahead settle it, and the cursor moves behind the bytes it takes. -/
lemma settles_iff {c : Cursor} {r : Except Error ℕ} {n : ℕ} :
    Settles c.position c.rest r n
      ↔ c.sevenBit.1 = r ∧ c.sevenBit.2.data = c.data ∧ c.sevenBit.2.position = c.position + n := by
  have hforth : ∀ {r n}, Settles c.position c.rest r n → c.sevenBit.1 = r
      ∧ c.sevenBit.2.data = c.data ∧ c.sevenBit.2.position = c.position + n := by
    intro r n h
    obtain ⟨hread, hlen⟩ := sevenBit_of_settles h
    rw [hread]
    exact ⟨rfl, rfl, position_consume hlen⟩
  refine ⟨hforth, ?_⟩
  rintro ⟨rfl, -, hposition⟩
  obtain ⟨r, k, h⟩ := exists_settles c
  obtain ⟨hr, -, hk⟩ := hforth h
  have hn : n = k := by omega
  rwa [hn, hr]

/-- **Reading a seven-bit integer**, wherever a cursor stands. Where a number was written it is read,
and its one to five bytes are consumed. A value is read exactly where marked bytes and a last one
stand, four and one at most and a fifth one below sixteen; it has 32 bits, seven from each byte, and
these bytes are consumed. Reading fails for one of two reasons: a fifth byte of sixteen or more is
reached, or the data ends before the number does. No more than five bytes are consumed, and what
stands behind them plays no part. -/
theorem sevenBit_exact (c : Cursor) :
    (∀ v : UInt32, encode v.toNat <+: c.rest →
      c.sevenBit.1 = .ok v.toNat ∧ c.sevenBit.2.position = c.position + (encode v.toNat).length
      ∧ 1 ≤ (encode v.toNat).length ∧ (encode v.toNat).length ≤ 5)
    ∧ (∀ v, c.sevenBit.1 = .ok v ↔ ∃ marked last, marked ++ [last] <+: c.rest
      ∧ Terminated marked last
      ∧ v = ((marked ++ [last]).mapIdx fun i b => (b.toNat % 128) <<< (7 * i)).sum)
    ∧ (∀ marked last, marked ++ [last] <+: c.rest → Terminated marked last →
      c.sevenBit.2.position = c.position + (marked.length + 1)
      ∧ ((marked ++ [last]).mapIdx fun i b => (b.toNat % 128) <<< (7 * i)).sum < 2 ^ 32)
    ∧ (∀ e, c.sevenBit.1 = .error e ↔
      (e = .format (.sevenBitOverflow (c.position + 4))
        ∧ ∃ marked fifth, marked ++ [fifth] <+: c.rest ∧ Excessive marked fifth)
      ∨ (e = .outOfBounds ∧ Unfinished c.rest))
    ∧ (c.sevenBit.2.data = c.data ∧ c.sevenBit.2.position ≤ c.position + 5)
    ∧ ∀ d : Cursor, d.position = c.position → d.rest.take 5 = c.rest.take 5 →
      d.sevenBit.1 = c.sevenBit.1 ∧ d.sevenBit.2.position = c.sevenBit.2.position := by
  obtain ⟨r, n, hsettles⟩ := exists_settles c
  obtain ⟨hread, hdata, hposition⟩ := settles_iff.mp hsettles
  refine ⟨fun v hahead => ?_, fun v => ?_, fun marked last hahead h => ?_, fun e => ?_,
    ⟨hdata, ?_⟩, fun d hd htake => ?_⟩
  · have hnumeral := numeral_encode v.toNat_lt
    obtain ⟨marked, last, hbytes, h, hv⟩ := hnumeral.exists_terminated
    rw [hbytes] at hahead ⊢
    obtain ⟨hvalue, -, hmoved⟩ := settles_iff.mp (.value hahead h)
    rw [hvalue, hmoved, ← hv, List.length_append, List.length_singleton]
    exact ⟨rfl, rfl, Nat.le_add_left 1 _, Nat.succ_le_succ h.length_le⟩
  · rw [hread]
    constructor
    · rintro rfl
      cases hsettles with
      | value hahead h => exact ⟨_, _, hahead, h, weight_eq_sum _⟩
    · rintro ⟨marked, last, hahead, h, rfl⟩
      rw [← hread, ← weight_eq_sum]
      exact (settles_iff.mp (.value hahead h)).1
  · rw [← weight_eq_sum]
    exact ⟨(settles_iff.mp (.value hahead h)).2.2, h.numeral.value_lt⟩
  · rw [hread]
    constructor
    · rintro rfl
      cases hsettles with
      | overflow hahead h => exact .inl ⟨rfl, _, _, hahead, h⟩
      | truncated h => exact .inr ⟨rfl, h⟩
    · rintro (⟨rfl, marked, fifth, hahead, h⟩ | ⟨rfl, h⟩)
      · rw [← hread]
        exact (settles_iff.mp (.overflow hahead h)).1
      · rw [← hread]
        exact (settles_iff.mp (.truncated h)).1
  · rw [hposition]
    exact Nat.add_le_add_left hsettles.le_five c.position
  · have hother : Settles d.position d.rest r n := by
      rw [hd]
      exact hsettles.of_take_eq htake
    obtain ⟨hread', -, hposition'⟩ := settles_iff.mp hother
    exact ⟨hread'.trans hread.symm, by rw [hposition', hposition, hd]⟩

/-- A cursor before the longest kind of numeral, whose fifth byte is the largest one allowed. -/
def sampleCursor : Cursor :=
  ⟨[0x2A, 0x80, 0x80, 0x80, 0x80, 0x0F, 0x07], 1, by decide⟩

/-- The same place, with nothing behind the numeral. -/
def sampleCut : Cursor := ⟨[0x01, 0x80, 0x80, 0x80, 0x80, 0x0F], 1, by decide⟩

theorem sevenBit_exact_sample :
    encode (0xF0000000 : UInt32).toNat <+: sampleCursor.rest
      ∧ sampleCursor.sevenBit.1 = .ok 0xF0000000 ∧ sampleCursor.sevenBit.2.position = 6
      ∧ Terminated [0x80, 0x80, 0x80, 0x80] 0x0F
      ∧ sampleCut.sevenBit.1 = .ok 0xF0000000 := by
  have hencode : encode (0xF0000000 : UInt32).toNat = [0x80, 0x80, 0x80, 0x80, 0x0F] := by
    simp [encode]
  have hahead : encode (0xF0000000 : UInt32).toNat <+: sampleCursor.rest := by
    rw [hencode]
    decide
  have hterminated : Terminated [0x80, 0x80, 0x80, 0x80] 0x0F :=
    ⟨by simp, Nat.le_refl 4, by decide, fun _ => by decide⟩
  obtain ⟨hwritten, -, hconsumed, -, -, hlocal⟩ := sevenBit_exact sampleCursor
  have hvalue := (hwritten 0xF0000000 hahead).1
  have hmoved := (hconsumed [0x80, 0x80, 0x80, 0x80] 0x0F (by decide) hterminated).1
  exact ⟨hahead, hvalue, hmoved, hterminated, (hlocal sampleCut rfl (by decide)).1.trans hvalue⟩

end Cursor

end OpcodeRecovery
