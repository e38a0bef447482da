import Mathlib.Tactic
import OpcodeRecovery.Code.Assembly
import OpcodeRecovery.Code.Decode
import OpcodeRecovery.Proofs.Outcome

/-!
Operands and their bytes, in both directions.

* `Decode.declaredOperand_bytes` and `Decode.inferredOperand_bytes`: whatever is read as an
  operand is spelled by exactly the bytes it was read from.
* `Decode.declaredOperand_append`: the bytes of an operand are read back as that operand, in
  front of anything, if its targets lie in the code.

Both rest on the same two facts about a signed number in four bytes: its bytes determine it,
and it determines its bytes. A branch target is such a number counted from the end of the
instruction; `Assembly.relative_eq` says when the count is exact.
-/

namespace OpcodeRecovery

/-! ### Numbers in bytes -/

namespace Assembly

@[simp] lemma length_signedBytes (n : ℕ) (v : ℤ) : (signedBytes n v).length = n :=
  Bytes.length_ofNatLE n _

/-- The bytes of a signed number spell it modulo what there is room for. -/
lemma toNatLE_signedBytes (n : ℕ) (v : ℤ) :
    (Bytes.toNatLE (signedBytes n v) : ℤ) = v % Bytes.capacity n := by
  have hpos : (0 : ℤ) < Bytes.capacity n := by exact_mod_cast Bytes.capacity_pos n
  have hnonneg := Int.emod_nonneg v (ne_of_gt hpos)
  have hlt := Int.emod_lt_of_pos v hpos
  rw [signedBytes, Bytes.toNatLE_ofNatLE_of_lt (by omega), Int.toNat_of_nonneg hnonneg]

/-- Bytes are those of every number that they spell. -/
lemma signedBytes_of_emod_eq {n : ℕ} {bs : Bytes} {v : ℤ} (hlen : bs.length = n)
    (h : v % Bytes.capacity n = Bytes.toNatLE bs) : signedBytes n v = bs := by
  rw [signedBytes, h, Int.toNat_natCast, ← hlen, Bytes.ofNatLE_toNatLE]

/-- A target that lies within reach is counted exactly. -/
lemma relative_eq {finish target : ℕ} (ht : target < 2 ^ 63)
    (hlo : -2 ^ 31 ≤ (target : ℤ) - finish) (hhi : (target : ℤ) - finish < 2 ^ 31) :
    relative finish target = (target : ℤ) - finish := by
  have hmod : Int.bmod target 0x10000000000000000 = target :=
    Int.bmod_eq_of_le_mul_two (by omega) (by omega)
  have hreach : -0x80000000 ≤ (target : ℤ) - finish ∧ (target : ℤ) - finish ≤ 0x7FFFFFFF := by
    omega
  unfold relative
  rw [hmod]
  exact if_pos hreach

end Assembly

namespace Decode

open Assembly (signedBytes relative)

lemma signedBytes_toInt_int32 {bs : Bytes} (h : bs.length = 4) :
    signedBytes 4 (int32 bs).toInt = bs := by
  have hlt := Bytes.toNatLE_lt bs
  rw [h] at hlt
  refine Assembly.signedBytes_of_emod_eq h ?_
  rw [int32, Int32.toInt_ofNat', show Int32.size = Bytes.capacity 4 from rfl, Int.bmod_emod]
  exact Int.emod_eq_of_lt (by omega) (by exact_mod_cast hlt)

lemma signedBytes_toInt_int64 {bs : Bytes} (h : bs.length = 8) :
    signedBytes 8 (int64 bs).toInt = bs := by
  have hlt := Bytes.toNatLE_lt bs
  rw [h] at hlt
  refine Assembly.signedBytes_of_emod_eq h ?_
  rw [int64, Int64.toInt_ofNat', show Int64.size = Bytes.capacity 8 from rfl, Int.bmod_emod]
  exact Int.emod_eq_of_lt (by omega) (by exact_mod_cast hlt)

/-- A number that 32 bits have room for is read back from its bytes. -/
lemma toInt_int32_signedBytes {v : ℤ} (hlo : -2 ^ 31 ≤ v) (hhi : v < 2 ^ 31) :
    (int32 (signedBytes 4 v)).toInt = v := by
  rw [int32, Int32.toInt_ofNat', Assembly.toNatLE_signedBytes,
    show Int32.size = Bytes.capacity 4 from rfl, Int.emod_bmod]
  exact Int.bmod_eq_of_le (by simpa [Bytes.capacity] using hlo)
    (by simpa [Bytes.capacity] using hhi)

lemma int32_signedBytes (v : Int32) : int32 (signedBytes 4 v.toInt) = v :=
  Int32.toInt_inj.mp (toInt_int32_signedBytes v.le_toInt v.toInt_lt)

lemma int64_signedBytes (v : Int64) : int64 (signedBytes 8 v.toInt) = v := by
  refine Int64.toInt_inj.mp ?_
  rw [int64, Int64.toInt_ofNat', Assembly.toNatLE_signedBytes,
    show Int64.size = Bytes.capacity 8 from rfl, Int.emod_bmod]
  exact Int64.toInt_bmod_size v

/-! ### Targets -/

/-- A target is read exactly if it lies in the code. -/
lemma target_eq_ok_iff {p : Place} {finish t : ℕ} {v : Int32} :
    target p finish v = .ok t ↔ (t : ℤ) = finish + v.toInt ∧ t < p.codeSize := by
  rw [target]
  split_ifs with h
  · rw [Except.ok.injEq]
    omega
  · refine ⟨fun h' => absurd h' reject_ne_ok, ?_⟩
    rintro ⟨ht, hlt⟩
    omega

/-- A target that was read is counted from the end of its instruction as it was read. -/
lemma relative_of_target {p : Place} {finish t : ℕ} {v : Int32} (hcode : p.codeSize ≤ 2 ^ 63)
    (h : target p finish v = .ok t) : relative finish t = v.toInt := by
  obtain ⟨ht, hlt⟩ := target_eq_ok_iff.mp h
  have hlo := v.le_toInt
  have hhi := v.toInt_lt
  rw [Assembly.relative_eq (by omega) (by omega) (by omega)]
  omega

/-- A target in a short code is read back from its distance. -/
lemma target_relative {p : Place} {finish t : ℕ} (hcode : p.codeSize < 2 ^ 31)
    (hfinish : finish ≤ p.codeSize) (ht : t < p.codeSize) :
    target p finish (int32 (signedBytes 4 (relative finish t))) = .ok t := by
  have hrel : relative finish t = (t : ℤ) - finish :=
    Assembly.relative_eq (by omega) (by omega) (by omega)
  rw [target_eq_ok_iff, hrel, toInt_int32_signedBytes (by omega) (by omega)]
  omega

/-- The targets that were read are spelled by the bytes they were read from. -/
lemma targets_bytes {p : Place} {finish n : ℕ} {bs : Bytes} {ts : List ℕ}
    (hcode : p.codeSize ≤ 2 ^ 63) (hlen : bs.length = 4 * n)
    (h : targets p finish n bs = .ok ts) :
    ts.length = n ∧ (ts.flatMap fun t => signedBytes 4 (relative finish t)) = bs := by
  induction n generalizing bs ts with
  | zero =>
      obtain rfl := Except.ok.inj h
      exact ⟨rfl, (List.eq_nil_of_length_eq_zero hlen).symm⟩
  | succ n ih =>
      rw [targets] at h
      obtain ⟨t, ht, h⟩ := bind_eq_ok_iff.mp h
      obtain ⟨ts', hts, h⟩ := bind_eq_ok_iff.mp h
      obtain rfl := Except.ok.inj h
      obtain ⟨hcount, hbytes⟩ := ih (by rw [List.length_drop]; omega) hts
      refine ⟨by rw [List.length_cons, hcount], ?_⟩
      have hfour : (bs.take 4).length = 4 := by
        rw [List.length_take]
        omega
      rw [List.flatMap_cons, hbytes, relative_of_target hcode ht, signedBytes_toInt_int32 hfour,
        List.take_append_drop]

/-- Targets in a short code are read back from their distances. -/
lemma targets_append {p : Place} {finish : ℕ} {ts : List ℕ} (rest : Bytes)
    (hcode : p.codeSize < 2 ^ 31) (hfinish : finish ≤ p.codeSize)
    (hts : ∀ t ∈ ts, t < p.codeSize) :
    targets p finish ts.length
      ((ts.flatMap fun t => signedBytes 4 (relative finish t)) ++ rest) = .ok ts := by
  induction ts with
  | nil => rfl
  | cons t ts ih =>
      have hfour : (signedBytes 4 (relative finish t)).length = 4 := Assembly.length_signedBytes 4 _
      rw [List.length_cons, targets, List.flatMap_cons, List.append_assoc,
        List.take_left' hfour, List.drop_left' hfour,
        target_relative hcode hfinish (hts t List.mem_cons_self),
        ih fun u hu => hts u (List.mem_cons_of_mem t hu)]
      rfl

/-! ### Reading operands -/

lemma operandBytes_eq_ok_iff {p : Place} {before n : ℕ} {bs head rest : Bytes} :
    operandBytes p before n bs = .ok (head, rest) ↔ bs = head ++ rest ∧ head.length = n := by
  rw [operandBytes, require_eq_ok_iff, Bytes.split?_eq_some_iff]

/-- A step that starts by cutting bytes off succeeds on the bytes cut off. -/
lemma of_operandBytes_bind {α : Type} {p : Place} {before n : ℕ} {bs : Bytes}
    {f : Bytes × Bytes → Except Error α} {a : α} (h : (operandBytes p before n bs >>= f) = .ok a) :
    ∃ head rest, bs = head ++ rest ∧ head.length = n ∧ f (head, rest) = .ok a := by
  obtain ⟨⟨head, rest⟩, hcut, hf⟩ := bind_eq_ok_iff.mp h
  obtain ⟨hbs, hlen⟩ := operandBytes_eq_ok_iff.mp hcut
  exact ⟨head, rest, hbs, hlen, hf⟩

lemma operandBytes_append (p : Place) (before : ℕ) (head rest : Bytes) :
    operandBytes p before head.length (head ++ rest) = .ok (head, rest) :=
  operandBytes_eq_ok_iff.mpr ⟨rfl, rfl⟩

lemma singleton_ofNat_toNatLE {bs : Bytes} (h : bs.length = 1) : [UInt8.ofNat bs.toNatLE] = bs := by
  obtain ⟨b, rfl⟩ := List.length_eq_one_iff.mp h
  simp [Bytes.toNatLE]

lemma ofNatLE_toNat_ofNat {bs : Bytes} (h : bs.length = 4) :
    Bytes.ofNatLE 4 (UInt32.ofNat bs.toNatLE).toNat = bs := by
  have hlt := Bytes.toNatLE_lt bs
  rw [h] at hlt
  rw [UInt32.toNat_ofNat_of_lt' hlt, ← h, Bytes.ofNatLE_toNatLE]

lemma toNatLE_ofNatLE_toNat (v : UInt32) : Bytes.toNatLE (Bytes.ofNatLE 4 v.toNat) = v.toNat :=
  Bytes.toNatLE_ofNatLE_of_lt v.toNat_lt

/-- Whatever is read as an operand of a declared shape has that shape, and the bytes it was
read from are its own. -/
lemma declaredOperand_bytes {p : Place} {bs : Bytes} {shape : OperandShape} {operand : Operand}
    {size : ℕ} (hcode : p.codeSize ≤ 2 ^ 63)
    (h : declaredOperand p bs shape = .ok (operand, size)) :
    operand.shape = shape ∧ (Assembly.operandBytes p.offset operand).length = size
      ∧ ∃ rest, bs = Assembly.operandBytes p.offset operand ++ rest := by
  cases shape with
  | none =>
      obtain ⟨rfl, rfl⟩ := Prod.mk.inj (Except.ok.inj h)
      exact ⟨rfl, rfl, bs, rfl⟩
  | byte =>
      obtain ⟨v, rest, rfl, hlen, hv⟩ := of_operandBytes_bind h
      obtain ⟨rfl, rfl⟩ := Prod.mk.inj (Except.ok.inj hv)
      exact ⟨rfl, rfl, rest, by rw [Assembly.operandBytes, singleton_ofNat_toNatLE hlen]⟩
  | int32 =>
      obtain ⟨v, rest, rfl, hlen, hv⟩ := of_operandBytes_bind h
      obtain ⟨rfl, rfl⟩ := Prod.mk.inj (Except.ok.inj hv)
      exact ⟨rfl, Assembly.length_signedBytes 4 _, rest, by
        rw [Assembly.operandBytes, signedBytes_toInt_int32 hlen]⟩
  | int64 =>
      obtain ⟨v, rest, rfl, hlen, hv⟩ := of_operandBytes_bind h
      obtain ⟨rfl, rfl⟩ := Prod.mk.inj (Except.ok.inj hv)
      exact ⟨rfl, Assembly.length_signedBytes 8 _, rest, by
        rw [Assembly.operandBytes, signedBytes_toInt_int64 hlen]⟩
  | token =>
      obtain ⟨v, rest, rfl, hlen, hv⟩ := of_operandBytes_bind h
      obtain ⟨rfl, rfl⟩ := Prod.mk.inj (Except.ok.inj hv)
      exact ⟨rfl, Bytes.length_ofNatLE 4 _, rest, by
        rw [Assembly.operandBytes, ofNatLE_toNat_ofNat hlen]⟩
  | branch =>
      obtain ⟨v, rest, rfl, hlen, hv⟩ := of_operandBytes_bind h
      obtain ⟨t, ht, hv⟩ := bind_eq_ok_iff.mp hv
      obtain ⟨rfl, rfl⟩ := Prod.mk.inj (Except.ok.inj hv)
      exact ⟨rfl, Assembly.length_signedBytes 4 _, rest, by
        rw [Assembly.operandBytes, relative_of_target hcode ht, signedBytes_toInt_int32 hlen]⟩
  | switch =>
      -- the count comes first; it says how many bytes the targets take
      obtain ⟨count, bs', rfl, hlen, hcount⟩ := of_operandBytes_bind h
      obtain ⟨table, rest, rfl, htlen, htable⟩ := of_operandBytes_bind hcount
      obtain ⟨ts, hts, hmade⟩ := bind_eq_ok_iff.mp htable
      obtain ⟨rfl, rfl⟩ := Prod.mk.inj (Except.ok.inj hmade)
      obtain ⟨hn, hbytes⟩ := targets_bytes hcode htlen hts
      have hfit : min ts.length 0xFFFFFFFF = count.toNatLE := by
        have hlt := Bytes.toNatLE_lt count
        rw [hlen, show Bytes.capacity 4 = 0x100000000 from rfl] at hlt
        omega
      have hspell : Assembly.operandBytes p.offset (.switch ts) = count ++ table := by
        rw [Assembly.operandBytes, hfit, hn, hbytes, ← hlen, Bytes.ofNatLE_toNatLE]
      refine ⟨rfl, ?_, rest, ?_⟩
      · rw [hspell, List.length_append, hlen, htlen]
      · rw [hspell, List.append_assoc]

/-- Whatever is read as an operand of an inferred width is no target, and the bytes it was read
from are its own. -/
lemma inferredOperand_bytes {p : Place} {bs : Bytes} {width : Width} {operand : Operand}
    (h : inferredOperand p bs width = .ok operand) :
    operand.targets = [] ∧ (Assembly.operandBytes p.offset operand).length = width.size
      ∧ ∃ rest, bs = Assembly.operandBytes p.offset operand ++ rest := by
  obtain ⟨v, rest, rfl, hlen, hv⟩ := of_operandBytes_bind h
  cases width with
  | zero =>
      obtain rfl := Except.ok.inj hv
      exact ⟨rfl, rfl, rest, by rw [List.eq_nil_of_length_eq_zero hlen]; rfl⟩
  | one =>
      obtain rfl := Except.ok.inj hv
      exact ⟨rfl, rfl, rest, by rw [Assembly.operandBytes, singleton_ofNat_toNatLE hlen]⟩
  | four =>
      obtain rfl := Except.ok.inj hv
      exact ⟨rfl, Assembly.length_signedBytes 4 _, rest, by
        rw [Assembly.operandBytes, signedBytes_toInt_int32 hlen]⟩
  | eight =>
      obtain rfl := Except.ok.inj hv
      exact ⟨rfl, Assembly.length_signedBytes 8 _, rest, by
        rw [Assembly.operandBytes, signedBytes_toInt_int64 hlen]⟩

lemma declaredOperand_branch {p : Place} {v : Bytes} {t : ℕ} (rest : Bytes) (hlen : v.length = 4)
    (ht : target p (p.offset + 5) (int32 v) = .ok t) :
    declaredOperand p (v ++ rest) .branch = .ok (.branch t, 4) := by
  have hread := operandBytes_append p 1 v rest
  rw [hlen] at hread
  simp only [declaredOperand, hread, ok_bind, ht, pure_eq_ok]

lemma declaredOperand_switch {p : Place} {count table : Bytes} {ts : List ℕ} {n : ℕ} (rest : Bytes)
    (hlen : count.length = 4) (hn : count.toNatLE = n) (htable : table.length = 4 * n)
    (hts : targets p (p.offset + 5 + 4 * n) n table = .ok ts) :
    declaredOperand p (count ++ table ++ rest) .switch = .ok (.switch ts, 4 + 4 * n) := by
  have hcount := operandBytes_append p 1 count (table ++ rest)
  have hread := operandBytes_append p 5 table rest
  rw [hlen] at hcount
  rw [htable] at hread
  simp only [declaredOperand, List.append_assoc, hcount, hread, ok_bind, hn, hts, pure_eq_ok]

lemma length_flatMap_signedBytes (finish : ℕ) (ts : List ℕ) :
    (ts.flatMap fun t => signedBytes 4 (relative finish t)).length = 4 * ts.length := by
  induction ts with
  | nil => rfl
  | cons t ts ih =>
      rw [List.flatMap_cons, List.length_append, Assembly.length_signedBytes, ih, List.length_cons]
      omega

/-- The bytes of an operand are read back as that operand, in front of anything, if the code is
short and the operand and its targets lie in it. -/
lemma declaredOperand_append {p : Place} {operand : Operand} (rest : Bytes)
    (hcode : p.codeSize < 2 ^ 31)
    (hfit : p.offset + 1 + (Assembly.operandBytes p.offset operand).length ≤ p.codeSize)
    (htargets : ∀ t ∈ operand.targets, t < p.codeSize) :
    declaredOperand p (Assembly.operandBytes p.offset operand ++ rest) operand.shape
      = .ok (operand, (Assembly.operandBytes p.offset operand).length) := by
  cases operand with
  | none => rfl
  | byte v =>
      have hread : operandBytes p 1 1 ([v] ++ rest) = .ok ([v], rest) :=
        operandBytes_append p 1 [v] rest
      have hv : UInt8.ofNat (Bytes.toNatLE [v]) = v := by simp [Bytes.toNatLE]
      simp only [Operand.shape, declaredOperand, Assembly.operandBytes, hread, ok_bind, hv,
        List.length_singleton, pure_eq_ok]
  | int32 v =>
      have hread := operandBytes_append p 1 (signedBytes 4 v.toInt) rest
      rw [Assembly.length_signedBytes] at hread
      simp only [Operand.shape, declaredOperand, Assembly.operandBytes, hread, ok_bind,
        int32_signedBytes, Assembly.length_signedBytes, pure_eq_ok]
  | int64 v =>
      have hread := operandBytes_append p 1 (signedBytes 8 v.toInt) rest
      rw [Assembly.length_signedBytes] at hread
      simp only [Operand.shape, declaredOperand, Assembly.operandBytes, hread, ok_bind,
        int64_signedBytes, Assembly.length_signedBytes, pure_eq_ok]
  | token t =>
      have hread := operandBytes_append p 1 (Bytes.ofNatLE 4 t.value.toNat) rest
      rw [Bytes.length_ofNatLE] at hread
      simp only [Operand.shape, declaredOperand, Assembly.operandBytes, hread, ok_bind,
        toNatLE_ofNatLE_toNat, UInt32.ofNat_toNat, Bytes.length_ofNatLE, pure_eq_ok]
  | branch t =>
      rw [Assembly.operandBytes, Assembly.length_signedBytes] at *
      exact declaredOperand_branch rest (Assembly.length_signedBytes 4 _)
        (target_relative hcode (by omega) (htargets t (List.mem_singleton.mpr rfl)))
  | switch ts =>
      simp only [Assembly.operandBytes, List.length_append, Bytes.length_ofNatLE,
        length_flatMap_signedBytes] at hfit ⊢
      have hcount : min ts.length 0xFFFFFFFF = ts.length := by omega
      have hnat : Bytes.toNatLE (Bytes.ofNatLE 4 ts.length) = ts.length :=
        Bytes.toNatLE_ofNatLE_of_lt (by rw [show Bytes.capacity 4 = 2 ^ 32 from rfl]; omega)
      have hts : targets p (p.offset + 5 + 4 * ts.length) ts.length
          ((ts.flatMap fun t => signedBytes 4 (relative (p.offset + 5 + 4 * ts.length) t)) ++ [])
            = .ok ts := targets_append [] hcode (by omega) htargets
      rw [List.append_nil] at hts
      rw [hcount]
      exact declaredOperand_switch rest (Bytes.length_ofNatLE 4 ts.length) hnat
        (length_flatMap_signedBytes _ ts) hts

end Decode

end OpcodeRecovery
