import Mathlib.Tactic
import OpcodeRecovery.Bytes.SevenBit

/-!
Seven-bit integers, the two directions.

* `SevenBit.decode_encode_append`: a 32-bit number is read back from what was written,
  whatever follows it, and exactly the written bytes are consumed. The induction is on the
  number, and its invariant (`decodeFrom_encode_append`) is that what is left to read after
  `i` bytes still fits in the bits left, `v * 128 ^ i < 2 ^ 32`.
* `SevenBit.value_lt_of_decode`: whatever is read is a 32-bit number, also when it was not
  written in the shortest form.
* `SevenBit.decode_eq_value_iff`: a number is read exactly where one of its numerals stands.
* `SevenBit.decode_eq_truncated_iff`: the data ends in a number exactly if all of it is marked
  bytes, four at most.
* `SevenBit.decode_eq_overflow_iff`: a number is too large exactly if the byte behind four marked
  ones has a bit above the fourth. `SevenBit.numeral_append_iff` is the other side of this: marked
  bytes and a last one are a numeral exactly if the last one, as the fifth, has no such bit.
-/

namespace OpcodeRecovery

namespace SevenBit

lemma encode_of_lt {v : ℕ} (h : v < 128) : encode v = [UInt8.ofNat v] := by
  rw [encode, if_pos h]

lemma encode_of_le {v : ℕ} (h : 128 ≤ v) :
    encode v = UInt8.ofNat (v % 128 + 128) :: encode (v / 128) := by
  rw [encode, if_neg (by omega)]

/-! ### Reading what was written -/

/-- After `i` marked bytes a number is read back if it fits in the bits that are left. -/
lemma decodeFrom_encode_append (v i : ℕ) (rest : Bytes) (h : v * 128 ^ i < 2 ^ 32) :
    decodeFrom i (encode v ++ rest) = .value v (i + (encode v).length) rest := by
  induction v using Nat.strong_induction_on generalizing i with
  | _ v ih =>
    by_cases hv : v < 128
    · -- the last byte: only as the fifth one it has to be below sixteen
      have hfifth : ¬ (i = 4 ∧ 16 ≤ (UInt8.ofNat v).toNat) := by
        rintro ⟨rfl, h16⟩
        rw [UInt8.toNat_ofNat'] at h16
        omega
      have hlast : (UInt8.ofNat v).toNat = v := by
        rw [UInt8.toNat_ofNat']
        omega
      rw [encode_of_lt hv, List.singleton_append, decodeFrom, if_neg hfifth, hlast, if_pos hv]
      rfl
    · have hbyte : (UInt8.ofNat (v % 128 + 128)).toNat = v % 128 + 128 := by
        rw [UInt8.toNat_ofNat']
        omega
      -- a marked byte is never the fifth one: the number would not fit
      have hi : i ≠ 4 := by
        rintro rfl
        omega
      have hnext : v / 128 * 128 ^ (i + 1) < 2 ^ 32 := by
        refine lt_of_le_of_lt ?_ h
        calc v / 128 * 128 ^ (i + 1) = v / 128 * 128 * 128 ^ i := by ring
          _ ≤ v * 128 ^ i := Nat.mul_le_mul_right _ (Nat.div_mul_le_self v 128)
      have hdiv : v / 128 < v := Nat.div_lt_self (by omega) (by omega)
      rw [encode_of_le (by omega), List.cons_append, decodeFrom, if_neg (by tauto), hbyte,
        if_neg (by omega), ih (v / 128) hdiv (i + 1) hnext, Reading.shift]
      rw [List.length_cons]
      congr 1 <;> omega

/-- **Reading after writing**: a 32-bit number is read back, and what follows it is left. -/
theorem decode_encode_append {v : ℕ} (rest : Bytes) (h : v < 2 ^ 32) :
    decode (encode v ++ rest) = .value v (encode v).length rest := by
  rw [decode, decodeFrom_encode_append v 0 rest (by omega), Nat.zero_add]

/-- A number takes at most as many bytes as it has groups of seven bits. -/
lemma length_encode_le {v : ℕ} (k : ℕ) (h : v < 128 ^ (k + 1)) : (encode v).length ≤ k + 1 := by
  induction k generalizing v with
  | zero => simp [encode_of_lt (show v < 128 by simpa using h)]
  | succ k ih =>
      by_cases hv : v < 128
      · simp [encode_of_lt hv]
      · rw [encode_of_le (not_lt.mp hv), List.length_cons]
        rw [pow_succ'] at h
        exact Nat.succ_le_succ (ih (Nat.div_lt_of_lt_mul h))

/-! ### What a reading can be -/

/-- Seven more low bits in front of a number that fits behind them fit, too. -/
lemma shift_lt {i low w : ℕ} (hi : i ≤ 3) (hlow : low < 128) (hw : w * 128 ^ (i + 1) < 2 ^ 32) :
    (low + 128 * w) * 128 ^ i < 2 ^ 32 := by
  -- seven-bit places divide the 32 bits evenly as far as the fourth
  obtain ⟨q, hq⟩ : 128 ^ (i + 1) ∣ 2 ^ 32 :=
    (pow_dvd_pow 128 (show i + 1 ≤ 4 by omega)).trans ⟨16, by norm_num⟩
  rw [hq, Nat.mul_comm] at hw ⊢
  have hwq : w < q := Nat.lt_of_mul_lt_mul_left hw
  calc 128 ^ i * (low + 128 * w) < 128 ^ i * (128 * (w + 1)) := by gcongr; omega
    _ = 128 ^ (i + 1) * (w + 1) := by ring
    _ ≤ 128 ^ (i + 1) * q := Nat.mul_le_mul_left _ hwq

/-- What is read after `i` marked bytes fits in the bits that are left, and the bytes that
were not consumed are left. -/
lemma decodeFrom_value {i v n : ℕ} {bs rest : Bytes} (hi : i ≤ 4)
    (h : decodeFrom i bs = .value v n rest) :
    v * 128 ^ i < 2 ^ 32 ∧ ∃ front, bs = front ++ rest := by
  induction bs generalizing i v with
  | nil => simp [decodeFrom] at h
  | cons b bs ih =>
      rw [decodeFrom] at h
      split_ifs at h with hfifth hlast
      · obtain ⟨rfl, -, rfl⟩ := Reading.value.inj h
        refine ⟨?_, [b], rfl⟩
        interval_cases i <;> omega
      · -- a marked fifth byte is refused, so the bytes behind this one are still in bounds
        have hi' : i + 1 ≤ 4 := by omega
        cases hr : decodeFrom (i + 1) bs with
        | value w m tail =>
            rw [hr, Reading.shift] at h
            obtain ⟨rfl, rfl, rfl⟩ := Reading.value.inj h
            obtain ⟨hw, front, rfl⟩ := ih hi' hr
            refine ⟨?_, b :: front, rfl⟩
            have hb := b.toNat_lt
            exact shift_lt (by omega) (by omega) hw
        | truncated m => simp [hr, Reading.shift] at h
        | overflow m => simp [hr, Reading.shift] at h

/-- Whatever is read is a 32-bit number. -/
theorem value_lt_of_decode {v n : ℕ} {bs rest : Bytes} (h : decode bs = .value v n rest) :
    v < 2 ^ 32 := by
  have hv := (decodeFrom_value (by omega) h).1
  omega

lemma exists_append_of_decode {v n : ℕ} {bs rest : Bytes} (h : decode bs = .value v n rest) :
    ∃ front, bs = front ++ rest :=
  (decodeFrom_value (by omega) h).2

/-! ### Where the data ends -/

lemma Reading.shift_eq_truncated_iff {low n : ℕ} {r : Reading} :
    r.shift low = .truncated n ↔ r = .truncated n := by
  cases r <;> simp [Reading.shift]

/-- After `i` marked bytes, the data ends in a number exactly if what is left of it is marked, and
does not reach the fifth byte. -/
lemma decodeFrom_eq_truncated_iff {i n : ℕ} {bs : Bytes} (hi : i ≤ 4) :
    decodeFrom i bs = .truncated n
      ↔ n = i + bs.length ∧ n ≤ 4 ∧ ∀ b ∈ bs, 128 ≤ b.toNat := by
  induction bs generalizing i with
  | nil =>
      rw [decodeFrom, Reading.truncated.injEq, List.length_nil]
      simp only [List.not_mem_nil, false_implies, implies_true, and_true]
      omega
  | cons b bs ih =>
      rw [decodeFrom, List.forall_mem_cons, List.length_cons]
      split_ifs with hfifth hlast
      · refine iff_of_false (by simp) ?_
        rintro ⟨hn, hle, -⟩
        omega
      · refine iff_of_false (by simp) ?_
        rintro ⟨-, -, hb, -⟩
        omega
      · rw [Reading.shift_eq_truncated_iff, ih (by omega)]
        have hmarked : 128 ≤ b.toNat := Nat.le_of_not_lt hlast
        simp only [hmarked, true_and, Nat.add_assoc, Nat.add_comm 1]

/-- **The data ends in a number** exactly if it is marked bytes, four at most. -/
theorem decode_eq_truncated_iff {n : ℕ} {bs : Bytes} :
    decode bs = .truncated n ↔ n = bs.length ∧ n ≤ 4 ∧ ∀ b ∈ bs, 128 ≤ b.toNat := by
  rw [decode, decodeFrom_eq_truncated_iff (by omega), Nat.zero_add]

/-! ### Beyond 32 bits -/

lemma Reading.shift_eq_overflow_iff {low n : ℕ} {r : Reading} :
    r.shift low = .overflow n ↔ r = .overflow n := by
  cases r <;> simp [Reading.shift]

/-- After `i` marked bytes, a number is too large exactly if the bytes up to the fifth are marked,
and the fifth has a bit above the fourth. -/
lemma decodeFrom_eq_overflow_iff {i n : ℕ} {bs : Bytes} (hi : i ≤ 4) :
    decodeFrom i bs = .overflow n
      ↔ n = 5 ∧ ∃ marked fifth, marked ++ [fifth] <+: bs ∧ i + marked.length = 4
        ∧ (∀ b ∈ marked, 128 ≤ b.toNat) ∧ 16 ≤ fifth.toNat := by
  induction bs generalizing i with
  | nil => simp [decodeFrom]
  | cons b bs ih =>
      rw [decodeFrom]
      split_ifs with hfifth hlast
      · obtain ⟨rfl, h16⟩ := hfifth
        rw [Reading.overflow.injEq]
        refine ⟨fun h => ⟨h.symm, [], b, ?_, rfl, by simp, h16⟩, fun h => h.1.symm⟩
        exact List.prefix_append [b] bs
      · -- a byte that is not marked ends the number before the fifth byte, or is a small fifth one
        refine iff_of_false (by simp) ?_
        rintro ⟨-, marked, fifth, hbs, hlen, hmarked, h16⟩
        cases marked with
        | nil =>
            obtain ⟨rfl, -⟩ := List.cons_prefix_cons.mp hbs
            exact hfifth ⟨hlen, h16⟩
        | cons c marked =>
            obtain ⟨rfl, -⟩ := List.cons_prefix_cons.mp hbs
            have hc := hmarked c List.mem_cons_self
            omega
      · have hmark : 128 ≤ b.toNat := Nat.le_of_not_lt hlast
        rw [Reading.shift_eq_overflow_iff, ih (by omega)]
        refine and_congr_right fun _ => ⟨?_, ?_⟩
        · rintro ⟨marked, fifth, hbs, hlen, hmarked, h16⟩
          refine ⟨b :: marked, fifth, (List.prefix_cons_inj b).mpr hbs, ?_, ?_, h16⟩
          · rw [List.length_cons]
            omega
          · exact List.forall_mem_cons.mpr ⟨hmark, hmarked⟩
        · rintro ⟨marked, fifth, hbs, hlen, hmarked, h16⟩
          cases marked with
          | nil =>
              obtain ⟨rfl, -⟩ := List.cons_prefix_cons.mp hbs
              exact absurd ⟨hlen, h16⟩ hfifth
          | cons c marked =>
              obtain ⟨rfl, hrest⟩ := List.cons_prefix_cons.mp hbs
              rw [List.length_cons] at hlen
              exact ⟨marked, fifth, hrest, by omega, (List.forall_mem_cons.mp hmarked).2, h16⟩

/-- **A number is too large** exactly if four marked bytes stand before one that has a bit above the
fourth. -/
theorem decode_eq_overflow_iff {n : ℕ} {bs : Bytes} :
    decode bs = .overflow n
      ↔ n = 5 ∧ ∃ marked fifth, marked ++ [fifth] <+: bs ∧ marked.length = 4
        ∧ (∀ b ∈ marked, 128 ≤ b.toNat) ∧ 16 ≤ fifth.toNat := by
  simp only [decode, decodeFrom_eq_overflow_iff (Nat.zero_le 4), Nat.zero_add]

/-! ### The numerals -/

/-- The number that bytes spell with their low seven bits, the first byte counting least. -/
def weight : Bytes → ℕ
  | [] => 0
  | b :: bs => b.toNat % 128 + 128 * weight bs

/-- A numeral: every byte but the last is marked, there are at most five, and the number they
spell has 32 bits. It need not be the shortest one. -/
structure Numeral (bs : Bytes) (v : ℕ) : Prop where
  marks : ∃ marked last, bs = marked ++ [last] ∧ (∀ b ∈ marked, 128 ≤ b.toNat) ∧ last.toNat < 128
  length_le : bs.length ≤ 5
  value_eq : v = weight bs
  value_lt : v < 2 ^ 32

lemma Numeral.length_pos {bs : Bytes} {v : ℕ} (h : Numeral bs v) : 0 < bs.length := by
  obtain ⟨marked, last, rfl, -, -⟩ := h.marks
  simp

/-- After `i` marked bytes, marked bytes and a last one are read if they fit in the bits left. -/
lemma decodeFrom_append {i : ℕ} {marked : Bytes} {last : UInt8} (rest : Bytes)
    (hmarked : ∀ b ∈ marked, 128 ≤ b.toNat) (hlast : last.toNat < 128)
    (hi : i + marked.length ≤ 4) (hlt : weight (marked ++ [last]) * 128 ^ i < 2 ^ 32) :
    decodeFrom i (marked ++ last :: rest)
      = .value (weight (marked ++ [last])) (i + (marked ++ [last]).length) rest := by
  induction marked generalizing i with
  | nil =>
      have hweight : weight [last] = last.toNat := by
        simp only [weight]
        omega
      -- a fifth byte of sixteen or more would not fit
      have hfifth : ¬ (i = 4 ∧ 16 ≤ last.toNat) := by
        rintro ⟨rfl, h16⟩
        rw [List.nil_append, hweight] at hlt
        omega
      rw [List.nil_append, List.nil_append, decodeFrom, if_neg hfifth, if_pos hlast, hweight]
      rfl
  | cons b marked ih =>
      have hb : 128 ≤ b.toNat := hmarked b List.mem_cons_self
      have hb' := b.toNat_lt
      have hrest : ∀ c ∈ marked, 128 ≤ c.toNat := fun c hc => hmarked c (List.mem_cons_of_mem b hc)
      rw [List.length_cons] at hi
      rw [List.cons_append, weight] at hlt
      have hnext : weight (marked ++ [last]) * 128 ^ (i + 1) < 2 ^ 32 := by
        refine lt_of_le_of_lt ?_ hlt
        calc weight (marked ++ [last]) * 128 ^ (i + 1)
            = 128 * weight (marked ++ [last]) * 128 ^ i := by ring
          _ ≤ (b.toNat % 128 + 128 * weight (marked ++ [last])) * 128 ^ i := by gcongr; omega
      rw [List.cons_append, decodeFrom, if_neg (by omega), if_neg (by omega),
        ih hrest (by omega) hnext, Reading.shift, List.cons_append, weight, List.length_cons,
        Reading.value.injEq]
      exact ⟨by omega, by omega, rfl⟩

/-- Whatever is read after `i` marked bytes is a run of marked bytes and a last one. -/
lemma exists_marked_of_decodeFrom {i v n : ℕ} {bs rest : Bytes} (hi : i ≤ 4)
    (h : decodeFrom i bs = .value v n rest) :
    ∃ marked last, bs = marked ++ last :: rest ∧ (∀ b ∈ marked, 128 ≤ b.toNat)
      ∧ last.toNat < 128 ∧ i + marked.length ≤ 4 ∧ v = weight (marked ++ [last])
      ∧ n = i + (marked ++ [last]).length := by
  induction bs generalizing i v with
  | nil => simp [decodeFrom] at h
  | cons b bs ih =>
      rw [decodeFrom] at h
      split_ifs at h with hfifth hlast
      · obtain ⟨rfl, rfl, rfl⟩ := Reading.value.inj h
        refine ⟨[], b, rfl, by simp, hlast, hi, ?_, rfl⟩
        simp only [List.nil_append, weight]
        omega
      · have hb := b.toNat_lt
        cases hr : decodeFrom (i + 1) bs with
        | value w m tail =>
            rw [hr, Reading.shift] at h
            obtain ⟨rfl, rfl, rfl⟩ := Reading.value.inj h
            obtain ⟨marked, last, rfl, hmarked, hlt, hlen, rfl, rfl⟩ := ih (by omega) hr
            refine ⟨b :: marked, last, rfl, ?_, hlt, ?_, ?_, ?_⟩
            · exact List.forall_mem_cons.mpr ⟨by omega, hmarked⟩
            · rw [List.length_cons]
              omega
            · rw [List.cons_append, weight]
              omega
            · simp only [List.cons_append, List.length_cons]
              omega
        | truncated m => simp [hr, Reading.shift] at h
        | overflow m => simp [hr, Reading.shift] at h

/-- **What is read**: exactly the numerals, whatever follows them. -/
theorem decode_eq_value_iff {v n : ℕ} {bs rest : Bytes} :
    decode bs = .value v n rest
      ↔ ∃ front, bs = front ++ rest ∧ front.length = n ∧ Numeral front v := by
  constructor
  · intro h
    have hlt := value_lt_of_decode h
    obtain ⟨marked, last, rfl, hmarked, hlast, hlen, rfl, rfl⟩ :=
      exists_marked_of_decodeFrom (by omega) h
    refine ⟨marked ++ [last], by simp, by simp, ⟨⟨marked, last, rfl, hmarked, hlast⟩, ?_, rfl, hlt⟩⟩
    rw [List.length_append, List.length_singleton]
    omega
  · rintro ⟨front, rfl, rfl, ⟨⟨marked, last, rfl, hmarked, hlast⟩, hlen, rfl, hlt⟩⟩
    rw [List.length_append, List.length_singleton] at hlen
    rw [List.append_assoc, List.singleton_append, decode,
      decodeFrom_append rest hmarked hlast (by omega) (by omega), Nat.zero_add]

/-- The value of a numeral, place by place: the low seven bits of each byte, shifted by seven places
for each byte before it. -/
lemma weight_eq_sum (bs : Bytes) :
    weight bs = (bs.mapIdx fun i b => (b.toNat % 128) <<< (7 * i)).sum := by
  have hplaces : ∀ k, weight bs <<< (7 * k)
      = (bs.mapIdx fun i b => (b.toNat % 128) <<< (7 * (i + k))).sum := by
    induction bs with
    | nil => simp [weight]
    | cons b bs ih =>
        intro k
        have hstep : (fun i b => ((b : UInt8).toNat % 128) <<< (7 * (i + 1 + k)))
            = fun i b => (b.toNat % 128) <<< (7 * (i + (k + 1))) := by
          funext i b
          rw [Nat.add_right_comm, Nat.add_assoc]
        rw [List.mapIdx_cons, List.sum_cons, hstep, ← ih, weight]
        simp only [Nat.shiftLeft_eq, Nat.zero_add, Nat.mul_add, pow_add]
        ring
  simpa using hplaces 0

lemma weight_lt (bs : Bytes) : weight bs < 128 ^ bs.length := by
  induction bs with
  | nil => simp [weight]
  | cons b bs ih =>
      rw [weight, List.length_cons, pow_succ]
      omega

lemma weight_append (bs cs : Bytes) :
    weight (bs ++ cs) = weight bs + 128 ^ bs.length * weight cs := by
  induction bs with
  | nil => simp [weight]
  | cons b bs ih =>
      rw [List.cons_append, weight, ih, weight, List.length_cons, pow_succ]
      ring

/-- Marked bytes and a last one are a numeral if the last one, as the fifth, keeps to its four low
bits: these are the bits from the twenty-ninth to the thirty-second. -/
lemma numeral_append_iff {marked : Bytes} {last : UInt8} {v : ℕ}
    (hmarked : ∀ b ∈ marked, 128 ≤ b.toNat) (hlast : last.toNat < 128) (hlen : marked.length ≤ 4) :
    Numeral (marked ++ [last]) v
      ↔ v = weight (marked ++ [last]) ∧ (marked.length = 4 → last.toNat < 16) := by
  have hweight : weight (marked ++ [last]) = weight marked + 128 ^ marked.length * last.toNat := by
    rw [weight_append, weight, weight, Nat.mul_zero, Nat.add_zero, Nat.mod_eq_of_lt hlast]
  have hlow := weight_lt marked
  constructor
  · intro h
    refine ⟨h.value_eq, fun hfour => ?_⟩
    have hlt := h.value_eq ▸ h.value_lt
    rw [hweight, hfour] at hlt
    omega
  · rintro ⟨rfl, hfifth⟩
    refine ⟨⟨marked, last, rfl, hmarked, hlast⟩, ?_, rfl, ?_⟩
    · rw [List.length_append, List.length_singleton]
      omega
    · rw [hweight]
      interval_cases hcount : marked.length <;> omega

/-- What is written is a numeral. -/
lemma numeral_encode {v : ℕ} (h : v < 2 ^ 32) : Numeral (encode v) v := by
  obtain ⟨front, hfront, -, hnumeral⟩ := decode_eq_value_iff.mp (decode_encode_append [] h)
  rw [List.append_nil, List.append_nil] at hfront
  rwa [hfront]

lemma decode?_eq_some_iff {v : ℕ} {bs rest : Bytes} :
    decode? bs = some (v, rest) ↔ ∃ front, bs = front ++ rest ∧ Numeral front v := by
  rw [decode?]
  constructor
  · intro h
    split at h
    · rename_i w n tail hdecode
      obtain ⟨rfl, rfl⟩ := Prod.mk.inj (Option.some.inj h)
      obtain ⟨front, hfront, -, hnumeral⟩ := decode_eq_value_iff.mp hdecode
      exact ⟨front, hfront, hnumeral⟩
    · cases h
  · rintro ⟨front, hfront, hnumeral⟩
    rw [decode_eq_value_iff.mpr ⟨front, hfront, rfl, hnumeral⟩]

end SevenBit

end OpcodeRecovery
