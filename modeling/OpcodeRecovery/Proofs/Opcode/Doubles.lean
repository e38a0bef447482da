import Mathlib
import OpcodeRecovery.Opcode.Ranking

/-!
Doubles in their order.

The bits of a double behind its sign number the doubles of one sign by their distance from zero
(`Score.magnitude`), up to infinity (`Score.infinite`); beyond it, there are no numbers. With its sign
the magnitude is the level of a double (`Score.level`), which is zero for both zeros.

* `Score.unpacks`: the parts of a double, by sign and magnitude.
* `Score.compare_unpack`: numbers compare like their levels. So do `<` and `≤`, which never hold for
  what is no number (`Score.lt_iff`, `Score.le_iff`).
* `Score.orderKey_lt_iff`: the order of all doubles is that of numbers, with negative zero below zero
  (`Score.Below`); and it tells all doubles apart (`Score.orderKey_inj`).
* `Score.rated_iff`: what a score counts as (`Score.Rated`), said without the comparisons by which it
  is found.
-/

namespace OpcodeRecovery

namespace Score

open Float.Model (UnpackedFloat Format)
open Float.Model.UnpackedFloat (Sign unpackMantissa unpackExponent unpackSign)

/-! ### Sign and magnitude -/

/-- The magnitude of infinity. -/
def infinite : ℕ := 0x7FF0000000000000

/-- The bits of a double behind its sign. -/
def magnitude (x : Float) : ℕ := x.toBits.toNat % 2 ^ 63

/-- The sign of a double. -/
def sign (x : Float) : Sign := if x.toBits.toNat < 2 ^ 63 then .positive else .negative

/-- The magnitude of a double with its sign. -/
def level (x : Float) : ℤ := (sign x).apply (magnitude x)

/-- The parts that a double of some sign and magnitude is made of. Below infinity, the magnitude counts
the doubles up from zero, which are as many for each exponent as there are mantissas to it. -/
inductive Unpacks (s : Sign) (n : ℕ) : UnpackedFloat → Prop where
  | notANumber (h : infinite < n) : Unpacks s n .notANumber
  | infinity (h : n = infinite) : Unpacks s n (.infinity s)
  | zero (h : n = 0) : Unpacks s n (.zero s)
  | finite {m : ℕ} {e : ℤ} (hm : 0 < m) (hn : (n : ℤ) = m + (e + 1074) * 2 ^ 52)
      (hlt : n < infinite) (hbits : m < 2 ^ 53) (hlow : -1074 ≤ e) (hnormal : e = -1074 ∨ 2 ^ 52 ≤ m) :
      Unpacks s n (.finite s m e hm)

lemma toNat_unpackMantissa (b : BitVec 64) :
    (@unpackMantissa .binary64 b).toNat = b.toNat % 2 ^ 52 := by
  rw [unpackMantissa, BitVec.toNat_cast, BitVec.extractLsb_toNat]
  rfl

lemma toNat_unpackExponent (b : BitVec 64) :
    (@unpackExponent .binary64 b).toNat = b.toNat / 2 ^ 52 % 2 ^ 11 := by
  rw [unpackExponent, BitVec.toNat_cast, BitVec.extractLsb_toNat, Nat.shiftRight_eq_div_pow]
  rfl

lemma toNat_unpackSign (b : BitVec 64) :
    (@unpackSign .binary64 b).toNat = b.toNat / 2 ^ 63 % 2 := by
  rw [unpackSign, BitVec.toNat_cast, BitVec.extractLsb_toNat, Nat.shiftRight_eq_div_pow]
  rfl

lemma toNat_one_append (v : BitVec 52) : (1#1 ++ v).toNat = 2 ^ 52 + v.toNat := by
  rw [BitVec.toNat_append, ← Nat.shiftLeft_add_eq_or_of_lt v.isLt]
  rfl

lemma ofBitVec_unpackSign (x : Float) :
    Sign.ofBitVec (@unpackSign .binary64 x.toBits.toBitVec) = sign x := by
  have hlt := x.toBits.toNat_lt
  have hbit := toNat_unpackSign x.toBits.toBitVec
  rw [UInt64.toNat_toBitVec] at hbit
  have hpositive : @unpackSign .binary64 x.toBits.toBitVec = 0#1
      ↔ x.toBits.toNat < 2 ^ 63 := by
    rw [← BitVec.toNat_inj, hbit, BitVec.toNat_ofNat]
    omega
  simp only [Sign.ofBitVec, sign, hpositive]

/-- A word is made of the parts that its fields ask for. -/
lemma unpacks_bits (b : BitVec 64) :
    Unpacks (Sign.ofBitVec (@unpackSign .binary64 b))
      ((@unpackExponent .binary64 b).toNat * 2 ^ 52 + (@unpackMantissa .binary64 b).toNat)
      (UnpackedFloat.unpack Format.binary64 b) := by
  have hexponent : (@unpackExponent .binary64 b).toNat < 2 ^ 11 :=
    (@unpackExponent .binary64 b).isLt
  have hmantissa : (@unpackMantissa .binary64 b).toNat < 2 ^ 52 :=
    (@unpackMantissa .binary64 b).isLt
  have hbias : ((Format.binary64.exponentBias : ℕ) : ℤ)
      + (Format.binary64.mantissaBitsWithoutImplicit : ℕ) = 1075 := rfl
  have hones : (-1#11).toNat = 2047 := rfl
  rw [UnpackedFloat.unpack]
  simp only [← BitVec.toNat_inj (n := 11), ← BitVec.toNat_inj (n := 52), hbias, hones,
    BitVec.toNat_ofNat, Nat.zero_mod]
  split_ifs with hfull hzero hnone hzero
  · exact .infinity (by rw [infinite]; omega)
  · exact .notANumber (by rw [infinite]; omega)
  · exact .zero (by omega)
  · -- no exponent: the mantissa alone
    exact .finite _ (by omega) (by rw [infinite]; omega) (by omega) (by omega) (.inl (by omega))
  · -- the mantissa has a leading one of its own
    have hone := toNat_one_append (@unpackMantissa .binary64 b)
    refine .finite _ ?_ (by rw [infinite]; omega) ?_ (by omega) (.inr ?_)
    · change (1#1 ++ @unpackMantissa .binary64 b).toNat = _ at hone
      rw [hone]
      omega
    · exact hone.trans_lt (by omega)
    · exact (Nat.le_add_right _ _).trans_eq hone.symm

/-- A double is made of the parts of its sign and magnitude. -/
lemma unpacks (x : Float) : Unpacks (sign x) (magnitude x) x.toModel.unpack := by
  have hmagnitude : magnitude x = x.toBits.toNat / 2 ^ 52 % 2 ^ 11 * 2 ^ 52
      + x.toBits.toNat % 2 ^ 52 := by
    rw [magnitude]
    omega
  rw [← ofBitVec_unpackSign, hmagnitude, ← UInt64.toNat_toBitVec, ← toNat_unpackExponent,
    ← toNat_unpackMantissa]
  exact unpacks_bits x.toBits.toBitVec

/-! ### Comparisons -/

/-- Exponents and mantissas compare like the magnitudes they come from. -/
lemma compare_parts {n k m m' : ℕ} {e e' : ℤ} (hn : (n : ℤ) = m + (e + 1074) * 2 ^ 52)
    (hk : (k : ℤ) = m' + (e' + 1074) * 2 ^ 52) (hm : m < 2 ^ 53) (hm' : m' < 2 ^ 53)
    (he : -1074 ≤ e) (he' : -1074 ≤ e') (hnormal : e = -1074 ∨ 2 ^ 52 ≤ m)
    (hnormal' : e' = -1074 ∨ 2 ^ 52 ≤ m') :
    (compare e e').then (compare m m') = compare (n : ℤ) k := by
  rcases lt_trichotomy e e' with hlt | rfl | hlt
  · -- the higher exponent has a leading one, which makes up for any mantissa
    rw [compare_lt_iff_lt.mpr hlt, Ordering.lt_then, eq_comm, compare_lt_iff_lt]
    omega
  · rw [compare_eq_iff_eq.mpr rfl, Ordering.eq_then]
    rcases lt_trichotomy m m' with hlt | rfl | hlt
    · rw [compare_lt_iff_lt.mpr hlt, eq_comm, compare_lt_iff_lt]
      omega
    · rw [compare_eq_iff_eq.mpr rfl, eq_comm, compare_eq_iff_eq]
      omega
    · rw [compare_gt_iff_gt.mpr hlt, eq_comm, compare_gt_iff_gt]
      omega
  · rw [compare_gt_iff_gt.mpr hlt, Ordering.gt_then, eq_comm, compare_gt_iff_gt]
    omega

lemma compare_neg_neg (i j : ℤ) : compare (-i) (-j) = (compare i j).swap := by
  rcases lt_trichotomy i j with hlt | rfl | hlt
  · rw [compare_lt_iff_lt.mpr hlt, Ordering.swap_lt, compare_gt_iff_gt]
    omega
  · rw [compare_eq_iff_eq.mpr rfl, compare_eq_iff_eq.mpr rfl, Ordering.swap_eq]
  · rw [compare_gt_iff_gt.mpr hlt, Ordering.swap_gt, compare_lt_iff_lt]
    omega

/-- Parts compare like the magnitudes that they come from, with their signs. -/
lemma compare_of_unpacks {s t : Sign} {n k : ℕ} {a b : UnpackedFloat} (ha : Unpacks s n a)
    (hb : Unpacks t k b) (hn : n ≤ infinite) (hk : k ≤ infinite) :
    some (compare (s.apply n) (t.apply k)) = a.compare b := by
  have hpos : 0 < infinite := by decide
  have hnegative : compare Sign.negative Sign.negative = .eq := rfl
  have hpositive : compare Sign.positive Sign.positive = .eq := rfl
  have hascending : compare Sign.negative Sign.positive = .lt := rfl
  have hdescending : compare Sign.positive Sign.negative = .gt := rfl
  cases ha with
  | notANumber h => omega
  | finite hm hparts hlt hbits hlow hnormal =>
      cases hb with
      | notANumber h => omega
      | finite hm' hparts' hlt' hbits' hlow' hnormal' =>
          have hcompare := compare_parts hparts hparts' hbits hbits' hlow hlow' hnormal hnormal'
          cases s <;> cases t <;>
            simp only [UnpackedFloat.compare, Sign.apply, Option.some.injEq, compare_lt_iff_lt,
              compare_gt_iff_gt, compare_neg_neg, hcompare] <;>
            omega
      | _ =>
          cases s <;> cases t <;>
            simp only [UnpackedFloat.compare, Sign.apply, Option.some.injEq, compare_lt_iff_lt,
              compare_gt_iff_gt] <;>
            omega
  | _ =>
      cases hb with
      | notANumber h => omega
      | _ =>
          cases s <;> cases t <;>
            simp only [UnpackedFloat.compare, Sign.apply, Option.some.injEq, compare_lt_iff_lt,
              compare_gt_iff_gt, compare_eq_iff_eq, hnegative, hpositive, hascending,
              hdescending] <;>
            omega

lemma isNaN_eq_true_iff (x : Float) : x.isNaN = true ↔ infinite < magnitude x := by
  have hpos : 0 < infinite := by decide
  have h := unpacks x
  change x.toModel.unpack.isNaN = true ↔ _
  generalize x.toModel.unpack = a at h
  cases h with
  | notANumber h => exact iff_of_true rfl h
  | finite hm hparts hlt hbits hlow hnormal => exact iff_of_false Bool.false_ne_true (by omega)
  | _ => exact iff_of_false Bool.false_ne_true (by omega)

/-- Numbers compare like their levels. -/
lemma compare_unpack {x y : Float} (hx : x.isNaN = false) (hy : y.isNaN = false) :
    x.toModel.unpack.compare y.toModel.unpack = some (compare (level x) (level y)) := by
  rw [← Bool.not_eq_true, isNaN_eq_true_iff, Nat.not_lt] at hx hy
  exact (compare_of_unpacks (unpacks x) (unpacks y) hx hy).symm

/-- What is no number does not compare. -/
lemma compare_eq_none {x y : Float} (h : x.isNaN = true ∨ y.isNaN = true) :
    x.toModel.unpack.compare y.toModel.unpack = none := by
  change x.toModel.unpack.isNaN = true ∨ y.toModel.unpack.isNaN = true at h
  generalize x.toModel.unpack = a at h ⊢
  generalize y.toModel.unpack = b at h ⊢
  rcases h with h | h
  · cases a with
    | notANumber => rfl
    | _ => cases h
  · cases b with
    | notANumber => cases a <;> rfl
    | _ => cases h

/-- A comparison says something of two numbers only, and then the same as of their levels. -/
lemma any_compare_iff {x y : Float} {p : Ordering → Bool} :
    (x.toModel.unpack.compare y.toModel.unpack).any p = true
      ↔ x.isNaN = false ∧ y.isNaN = false ∧ p (compare (level x) (level y)) = true := by
  by_cases h : x.isNaN = true ∨ y.isNaN = true
  · rw [compare_eq_none h]
    refine iff_of_false Bool.false_ne_true fun ⟨hx, hy, _⟩ => ?_
    rw [hx, hy, or_self] at h
    exact Bool.false_ne_true h
  · rw [not_or, Bool.not_eq_true, Bool.not_eq_true] at h
    rw [compare_unpack h.1 h.2, Option.any_some]
    exact ⟨fun hp => ⟨h.1, h.2, hp⟩, fun hp => hp.2.2⟩

lemma lt_iff {x y : Float} : x < y ↔ x.isNaN = false ∧ y.isNaN = false ∧ level x < level y := by
  have hany : (x.toModel.unpack.compare y.toModel.unpack == some .lt)
      = (x.toModel.unpack.compare y.toModel.unpack).any (· == .lt) := by
    cases x.toModel.unpack.compare y.toModel.unpack <;> rfl
  change decide ((x.toModel.unpack.compare y.toModel.unpack == some .lt) = true) = true ↔ _
  rw [decide_eq_true_eq, hany, any_compare_iff, beq_iff_eq, compare_lt_iff_lt]

lemma le_iff {x y : Float} : x ≤ y ↔ x.isNaN = false ∧ y.isNaN = false ∧ level x ≤ level y := by
  change decide ((x.toModel.unpack.compare y.toModel.unpack).any (·.isLE) = true) = true ↔ _
  rw [decide_eq_true_eq, any_compare_iff, Ordering.isLE_iff_ne_gt, ← ne_eq, compare_le_iff_le]

lemma not_lt_iff {x y : Float} (hx : x.isNaN = false) (hy : y.isNaN = false) :
    ¬ x < y ↔ y ≤ x := by
  rw [lt_iff, le_iff]
  simp only [hx, hy, true_and, not_lt]

/-! ### The order of all doubles -/

/-- The bits, the level and the place in the order of a double, by its magnitude. -/
lemma magnitude_cases (x : Float) :
    x.toBits.toNat = magnitude x ∧ level x = magnitude x ∧ orderKey x = 2 ^ 63 + magnitude x
    ∨ x.toBits.toNat = 2 ^ 63 + magnitude x ∧ level x = -magnitude x
      ∧ orderKey x = 2 ^ 63 - 1 - magnitude x := by
  have hlt := x.toBits.toNat_lt
  by_cases h : x.toBits.toNat < 2 ^ 63
  · have hmagnitude : x.toBits.toNat = magnitude x := (Nat.mod_eq_of_lt h).symm
    refine .inl ⟨hmagnitude, ?_, ?_⟩
    · rw [level, sign, if_pos h, Sign.apply]
    · rw [orderKey]
      split_ifs <;> omega
  · have hmagnitude : x.toBits.toNat = 2 ^ 63 + magnitude x := by
      rw [magnitude]
      omega
    refine .inr ⟨hmagnitude, ?_, ?_⟩
    · rw [level, sign, if_neg h, Sign.apply]
    · rw [orderKey]
      split_ifs <;> omega

/-- No two doubles have the same place. -/
lemma orderKey_inj {x y : Float} : orderKey x = orderKey y ↔ x = y := by
  refine ⟨fun h => Float.toBits_inj.mp (UInt64.toNat_inj.mp ?_), congrArg _⟩
  have hx : magnitude x < 2 ^ 63 := Nat.mod_lt _ (by decide)
  have hy : magnitude y < 2 ^ 63 := Nat.mod_lt _ (by decide)
  have hcases := magnitude_cases x
  have hcases' := magnitude_cases y
  omega

/-- What stands no higher has no higher level. -/
lemma level_le_of_orderKey_le {x y : Float} (h : orderKey x ≤ orderKey y) : level x ≤ level y := by
  have hx : magnitude x < 2 ^ 63 := Nat.mod_lt _ (by decide)
  have hy : magnitude y < 2 ^ 63 := Nat.mod_lt _ (by decide)
  have hcases := magnitude_cases x
  have hcases' := magnitude_cases y
  omega

/-- One number stands below another: it is less, or it is negative zero and the other is zero. -/
def Below (x y : Float) : Prop := x < y ∨ x = -0.0 ∧ y = 0.0

/-- The places of numbers are in their order. -/
lemma orderKey_lt_iff {x y : Float} (hx : x.isNaN = false) (hy : y.isNaN = false) :
    orderKey x < orderKey y ↔ Below x y := by
  have hminus : x = -0.0 ↔ x.toBits.toNat = 2 ^ 63 := by
    rw [← Float.toBits_inj, ← UInt64.toNat_inj, show (-0.0 : Float).toBits.toNat = 2 ^ 63 by decide]
  have hzero : y = 0.0 ↔ y.toBits.toNat = 0 := by
    rw [← Float.toBits_inj, ← UInt64.toNat_inj, show (0.0 : Float).toBits.toNat = 0 by decide]
  have hcases := magnitude_cases x
  have hcases' := magnitude_cases y
  have hx' : magnitude x < 2 ^ 63 := Nat.mod_lt _ (by decide)
  have hy' : magnitude y < 2 ^ 63 := Nat.mod_lt _ (by decide)
  rw [Below, lt_iff, hminus, hzero]
  simp only [hx, hy, true_and]
  omega

/-! ### The scores that count -/

/-- What a score counts as: zero if it is no number, else the nearest value between zero and one. -/
inductive Rated : Float → Float → Prop where
  | notANumber {x : Float} (h : x.isNaN = true) : Rated x 0.0
  | low {x : Float} (h : x < 0.0) : Rated x 0.0
  | high {x : Float} (h : 1.0 < x) : Rated x 1.0
  | between {x : Float} (hlow : 0.0 ≤ x) (hhigh : x ≤ 1.0) : Rated x x

lemma isNaN_zero : (0.0 : Float).isNaN = false := by decide

lemma isNaN_one : (1.0 : Float).isNaN = false := by decide

/-- A score counts as a number. -/
lemma Rated.isNaN_eq_false {x y : Float} (h : Rated x y) : y.isNaN = false := by
  cases h with
  | notANumber h => exact isNaN_zero
  | low h => exact isNaN_zero
  | high h => exact isNaN_one
  | between hlow hhigh => exact (le_iff.mp hlow).2.1

/-- A score counts as something between zero and one. -/
lemma Rated.level_bounds {x y : Float} (h : Rated x y) : 0 ≤ level y ∧ level y ≤ level 1.0 := by
  have hzero : level 0.0 = 0 := by decide
  have hone : 0 ≤ level 1.0 := by decide
  cases h with
  | notANumber h => exact ⟨hzero.ge, hzero.trans_le hone⟩
  | low h => exact ⟨hzero.ge, hzero.trans_le hone⟩
  | high h => exact ⟨hone, le_refl _⟩
  | between hlow hhigh => exact ⟨hzero ▸ (le_iff.mp hlow).2.2, (le_iff.mp hhigh).2.2⟩

lemma rated_normalize (x : Float) : Rated x (normalize x) := by
  rw [normalize]
  split_ifs with h
  · exact .notANumber h
  · rw [Bool.not_eq_true] at h
    rw [clampUnit]
    split_ifs with hlow hhigh
    · exact .low hlow
    · exact .high hhigh
    · exact .between ((not_lt_iff h isNaN_zero).mp hlow) ((not_lt_iff isNaN_one h).mp hhigh)

/-- A score counts as one value and as no other. -/
lemma rated_iff {x y : Float} : Rated x y ↔ y = normalize x := by
  constructor
  · intro h
    have hnumber (hx : x.isNaN = false) : normalize x = clampUnit x := by
      rw [normalize, hx, if_neg Bool.false_ne_true]
    cases h with
    | notANumber h => rw [normalize, if_pos h]
    | low h => rw [hnumber (lt_iff.mp h).1, clampUnit, if_pos h]
    | high h =>
        have hx := (lt_iff.mp h).2.1
        have hlow : ¬ x < 0.0 := by
          have hzero : level 0.0 = 0 := by decide
          have hone : level 1.0 = 0x3FF0000000000000 := by decide
          have hlevel := (lt_iff.mp h).2.2
          rw [lt_iff]
          omega
        rw [hnumber hx, clampUnit, if_neg hlow, if_pos h]
    | between hlow hhigh =>
        have hx := (le_iff.mp hlow).2.1
        rw [hnumber hx, clampUnit, if_neg ((not_lt_iff hx isNaN_zero).mpr hlow),
          if_neg ((not_lt_iff isNaN_one hx).mpr hhigh)]
  · rintro rfl
    exact rated_normalize x

end Score

end OpcodeRecovery
