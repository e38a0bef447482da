import Mathlib
import OpcodeRecovery.Opcode.Profile
import OpcodeRecovery.Proofs.Opcode.Doubles
import OpcodeRecovery.Text.Fixed

/-!
Doubles in arithmetic: what becomes of their levels when they are subtracted and divided.

A result is a fraction that is rounded to 53 bits. The bits that are dropped on the way say all that
the rounding has to know of the fraction (`Score.shiftRight_fraction`), so the mantissa of the result
is the fraction rounded once, to the nearest number (`Score.level_roundWithAccuracy`). Rounding keeps
the order and does not move what needs no rounding (`Fixed.roundDiv_mono`, `Fixed.roundDiv_mul`).
That is what the bounds here rest on.

* `Score.sub_self_lt`: a number is no further away from itself than from one that is not larger.
* `Score.level_toFloat`: the level of a count. Larger counts do not have lower levels
  (`Score.level_toFloat_mono`).
* `ratio_eq_div`: the ratio of a part and a whole is their quotient, which is not above one as it
  stands.
-/

namespace OpcodeRecovery

/-! ### Rounded fractions -/

namespace Fixed

/-- What needs no rounding stays. -/
lemma roundDiv_mul (c : ℕ) {d : ℕ} (hd : 0 < d) : roundDiv (c * d) d = c := by
  rw [roundDiv, Nat.mul_mod_left, Nat.mul_div_cancel c hd, Nat.mul_zero]
  exact if_pos hd

/-- Larger numbers are not rounded to smaller ones. -/
lemma roundDiv_mono {a b : ℕ} (d : ℕ) (h : a ≤ b) : roundDiv a d ≤ roundDiv b d := by
  have hquotient : a / d ≤ b / d := Nat.div_le_div_right h
  have ha := Nat.div_add_mod a d
  have hb := Nat.div_add_mod b d
  rcases hquotient.lt_or_eq with hlt | heq
  · simp only [roundDiv]
    split_ifs <;> omega
  · rw [heq] at ha
    simp only [roundDiv, heq]
    split_ifs <;> omega

lemma le_roundDiv {a c d : ℕ} (hd : 0 < d) (h : c * d ≤ a) : c ≤ roundDiv a d :=
  (roundDiv_mul c hd).symm.trans_le (roundDiv_mono d h)

lemma roundDiv_le {a c d : ℕ} (hd : 0 < d) (h : a ≤ c * d) : roundDiv a d ≤ c :=
  (roundDiv_mono d h).trans_eq (roundDiv_mul c hd)

end Fixed

namespace Score

open Float.Model (UnpackedFloat Format totalExponent)
open Float.Model.UnpackedFloat (Sign Accuracy ExtendedMantissa packComponents accuracyOfFraction
  shiftToTargetExponent shiftToExponent roundWithAccuracy decreaseExponent divCore)

/-! ### Parts -/

/-- The double that is packed from some parts. -/
def packed (u : UnpackedFloat) : Float := .ofModel (.pack u)

lemma level_of_lt {x : Float} (h : x.toBits.toNat < 2 ^ 63) : level x = x.toBits.toNat := by
  have hcases := magnitude_cases x
  omega

lemma toNat_packComponents (e : BitVec 11) (m : BitVec 52) :
    (packComponents .binary64 .positive e m).toNat = e.toNat * 2 ^ 52 + m.toNat := by
  have hm : m.toNat < 2 ^ 52 := m.isLt
  have he : e.toNat < 2 ^ 11 := e.isLt
  rw [packComponents, BitVec.toNat_append, ← Nat.shiftLeft_add_eq_or_of_lt m.isLt,
    BitVec.toNat_append, ← Nat.shiftLeft_add_eq_or_of_lt e.isLt, Nat.shiftLeft_eq, Nat.shiftLeft_eq]
  simp [Sign.toBitVec]

/-- The level of a double with a full mantissa. -/
lemma level_packed_finite {m : ℕ} {e : ℤ} (hpos : 0 < m) (hlow : 2 ^ 52 ≤ m) (hhigh : m < 2 ^ 53)
    (he : -1074 ≤ e) (he' : e ≤ 971) :
    level (packed (.finite .positive m e hpos)) = m + (e + 1074) * 2 ^ 52 := by
  have hlog : m.log2 = 52 := (Nat.log2_eq_iff hpos.ne').mpr ⟨hlow, hhigh⟩
  have hbits : (packed (.finite .positive m e hpos)).toBits.toNat
      = (e + 1075).toNat * 2 ^ 52 + m % 2 ^ 52 := by
    change (UnpackedFloat.pack .binary64 (.finite .positive m e hpos)).toNat = _
    rw [UnpackedFloat.pack]
    have hbias : e + (Format.binary64.exponentBias : ℕ)
        + (Format.binary64.mantissaBitsWithoutImplicit : ℕ) = e + 1075 := by
      change e + 1023 + 52 = _
      omega
    simp only [hbias, hlog]
    rw [if_neg (by omega), if_pos (by decide), toNat_packComponents,
      BitVec.toNat_ofNat, BitVec.toNat_ofNat, Nat.mod_eq_of_lt (by omega)]
  rw [level_of_lt (by omega), hbits]
  omega

/-- Whatever the parts are, the sign is kept. -/
lemma level_packed_nonneg {m : ℕ} {e : ℤ} (hpos : 0 < m) :
    0 ≤ level (packed (.finite .positive m e hpos)) := by
  have hcomponents (e : BitVec 11) (m : BitVec 52) :
      (packComponents .binary64 .positive e m).toNat < 2 ^ 63 := by
    have he := e.isLt
    have hm := m.isLt
    rw [toNat_packComponents]
    omega
  have hbits : (packed (.finite .positive m e hpos)).toBits.toNat < 2 ^ 63 := by
    change (UnpackedFloat.pack .binary64 (.finite .positive m e hpos)).toNat < _
    rw [UnpackedFloat.pack]
    dsimp only
    split_ifs
    · exact hcomponents _ _
    · exact hcomponents _ _
    · exact hcomponents _ _
  rw [level_of_lt hbits]
  exact Int.natCast_nonneg _

lemma level_packed_zero (s : Sign) : level (packed (.zero s)) = 0 := by
  cases s <;> decide

lemma isNaN_packed_zero (s : Sign) : (packed (.zero s)).isNaN = false := by
  cases s <;> decide

/-- The parts of a zero. -/
lemma exists_zero {x : Float} (h : level x = 0) : ∃ s, x.toModel.unpack = .zero s := by
  have hpos : 0 < infinite := by decide
  have hmagnitude : magnitude x = 0 := by
    have hcases := magnitude_cases x
    omega
  have hparts := unpacks x
  rw [hmagnitude] at hparts
  generalize x.toModel.unpack = u at hparts
  cases hparts with
  | zero h => exact ⟨_, rfl⟩
  | finite hm hn hlt hbits hlow hnormal => omega
  | _ => omega

/-- The parts of a finite double above zero. -/
lemma exists_parts {x : Float} (hpos : 0 < level x) (hlt : level x < infinite) :
    ∃ (m : ℕ) (e : ℤ) (hm : 0 < m), x.toModel.unpack = .finite .positive m e hm ∧ m < 2 ^ 53
      ∧ -1074 ≤ e ∧ (e = -1074 ∨ 2 ^ 52 ≤ m) ∧ level x = m + (e + 1074) * 2 ^ 52 := by
  have h := unpacks x
  rw [level] at hpos hlt ⊢
  generalize x.toModel.unpack = u at h
  generalize sign x = s at *
  cases s with
  | negative =>
      rw [Sign.apply] at hpos
      omega
  | positive =>
      rw [Sign.apply] at hpos hlt ⊢
      cases h with
      | finite hm hparts hfinite hbits hlow hnormal =>
          exact ⟨_, _, hm, rfl, hbits, hlow, hnormal, hparts⟩
      | _ => omega

/-! ### Rounding -/

/-- What is kept of a fraction beside its whole part: whether it reaches a half, and whether it is
neither nothing nor a half. -/
lemma ofMantissaAndAccuracy_fraction (q : ℕ) {r d : ℕ} (hd : 0 < d) :
    ExtendedMantissa.ofMantissaAndAccuracy q (accuracyOfFraction r d)
      = ⟨q, decide (d ≤ 2 * r), decide (r ≠ 0 ∧ 2 * r ≠ d)⟩ := by
  rw [accuracyOfFraction]
  split_ifs with hr
  · subst hr
    simp [ExtendedMantissa.ofMantissaAndAccuracy, hd.ne']
  · rcases lt_trichotomy (2 * r) d with hlt | heq | hlt
    · simp [compare_lt_iff_lt.mpr hlt, ExtendedMantissa.ofMantissaAndAccuracy, hr, hlt.ne, hlt]
    · simp [ExtendedMantissa.ofMantissaAndAccuracy, heq]
    · simp [compare_gt_iff_gt.mpr hlt, ExtendedMantissa.ofMantissaAndAccuracy, hr, hlt.ne', hlt.le]

/-- A mantissa of a fraction that loses a bit is the mantissa of half the fraction. -/
lemma shiftRightOne_fraction (a : ℕ) {d : ℕ} (hd : 0 < d) :
    (ExtendedMantissa.ofMantissaAndAccuracy (a / d) (accuracyOfFraction (a % d) d)).shiftRightOne
      = .ofMantissaAndAccuracy (a / (d * 2)) (accuracyOfFraction (a % (d * 2)) (d * 2)) := by
  have hlt := Nat.mod_lt a hd
  have hdouble : 0 < d * 2 := by omega
  rw [ofMantissaAndAccuracy_fraction _ hd, ofMantissaAndAccuracy_fraction _ hdouble,
    ← Nat.div_div_eq_div_mul, Nat.mod_mul, ExtendedMantissa.shiftRightOne]
  dsimp only
  -- the bit that is lost decides about the half, and all below it only about the rest
  rcases Nat.mod_two_eq_zero_or_one (a / d) with hbit | hbit
  · rw [hbit, ExtendedMantissa.mk.injEq]
    grind
  · rw [hbit, ExtendedMantissa.mk.injEq]
    grind

lemma shiftRight_fraction (a : ℕ) {d : ℕ} (hd : 0 < d) (k : ℕ) :
    ExtendedMantissa.ofMantissaAndAccuracy (a / d) (accuracyOfFraction (a % d) d) >>> k
      = .ofMantissaAndAccuracy (a / (d * 2 ^ k))
        (accuracyOfFraction (a % (d * 2 ^ k)) (d * 2 ^ k)) := by
  induction k with
  | zero => rw [Nat.pow_zero, Nat.mul_one]; rfl
  | succ k ih =>
      have hstep (em : ExtendedMantissa) : em >>> (k + 1) = (em >>> k).shiftRightOne := rfl
      rw [hstep, ih, shiftRightOne_fraction a (by positivity), Nat.pow_succ, Nat.mul_assoc]

/-- The mantissa of a fraction is rounded like the fraction. -/
lemma roundedMantissa_fraction (a : ℕ) {d : ℕ} (hd : 0 < d) :
    (ExtendedMantissa.ofMantissaAndAccuracy (a / d) (accuracyOfFraction (a % d) d)).roundedMantissa
      = Fixed.roundDiv a d := by
  have haccuracy (m : ℕ) (x : Accuracy) :
      (ExtendedMantissa.ofMantissaAndAccuracy m x).roundedMantissa = x.roundToNearestEven m := by
    cases x with
    | exact => rfl
    | inexact o => cases o <;> rfl
  rw [haccuracy, accuracyOfFraction, Fixed.roundDiv]
  rcases Nat.eq_zero_or_pos (a % d) with hr | hr
  · rw [if_pos hr, if_pos (by omega), Accuracy.roundToNearestEven]
  · rw [if_neg hr.ne']
    rcases lt_trichotomy (2 * (a % d)) d with hlt | heq | hlt
    · rw [compare_lt_iff_lt.mpr hlt, if_pos hlt, Accuracy.roundToNearestEven]
    · rw [compare_eq_iff_eq.mpr heq, if_neg heq.not_lt, if_neg heq.not_gt,
        Accuracy.roundToNearestEven]
      split_ifs <;> omega
    · rw [compare_gt_iff_gt.mpr hlt, if_neg hlt.not_gt, if_pos hlt, Accuracy.roundToNearestEven]

lemma targetExponent_eq (t : ℤ) : Format.binary64.targetExponent t = max (t - 53) (-1074) := rfl

/-- A mantissa that is long enough is shifted until it has 53 bits. -/
lemma shiftToTargetExponent_eq {m : ℕ} {e : ℤ} (x : Accuracy) (hlog : 52 ≤ m.log2)
    (he : -1074 ≤ e) :
    shiftToTargetExponent .binary64 m e x
      = (ExtendedMantissa.ofMantissaAndAccuracy m x >>> (m.log2 - 52), e + (m.log2 - 52 : ℕ)) := by
  have hshift : (Format.binary64.targetExponent (totalExponent m e) - e).toNat = m.log2 - 52 := by
    rw [targetExponent_eq, totalExponent]
    omega
  rw [shiftToTargetExponent, shiftToExponent, hshift]

/-- A mantissa may have become one bit too long when it was rounded. Then it is halved, and the
exponent makes up for it. -/
lemma exists_shiftToTargetExponent {m : ℕ} {e : ℤ} (hlow : 2 ^ 52 ≤ m) (hhigh : m ≤ 2 ^ 53)
    (he : -1074 ≤ e) :
    ∃ (k : ℕ) (f : ℤ), shiftToTargetExponent .binary64 m e .exact = (⟨k, false, false⟩, f)
      ∧ 2 ^ 52 ≤ k ∧ k < 2 ^ 53 ∧ e ≤ f ∧ f ≤ e + 1
      ∧ k + (f + 1074) * 2 ^ 52 = m + (e + 1074) * 2 ^ 52 := by
  rcases hhigh.lt_or_eq with hlt | rfl
  · have hlog : m.log2 = 52 := (Nat.log2_eq_iff (by omega)).mpr ⟨hlow, hlt⟩
    refine ⟨m, e, ?_, hlow, hlt, by omega, by omega, rfl⟩
    rw [shiftToTargetExponent_eq .exact hlog.ge he, hlog, Nat.sub_self, Nat.cast_zero, add_zero]
    rfl
  · have hlog : (2 ^ 53).log2 = 53 := Nat.log2_two_pow
    refine ⟨2 ^ 52, e + 1, ?_, by decide, by decide, by omega, by omega, by omega⟩
    rw [shiftToTargetExponent_eq .exact (hlog.symm ▸ by decide) he, hlog]
    rfl

/-- The level of a fraction after rounding, if its whole part has the 53 bits that are kept. -/
lemma level_roundWithAccuracy (a : ℕ) {d : ℕ} {e : ℤ} (hd : 0 < d) (hlow : 2 ^ 52 ≤ a / d)
    (he : -1074 ≤ e) (he' : e + (a / d).log2 ≤ 1022) :
    level (packed (roundWithAccuracy .binary64 .positive (a / d) e (accuracyOfFraction (a % d) d)))
      = Fixed.roundDiv a (d * 2 ^ ((a / d).log2 - 52)) + (e + (a / d).log2 + 1022) * 2 ^ 52 := by
  have hlog : 52 ≤ (a / d).log2 := (Nat.le_log2 (by omega)).mpr hlow
  obtain ⟨hfloor, hceil⟩ := (Nat.log2_eq_iff (n := a / d) (by omega)).mp rfl
  have hshift := shiftToTargetExponent_eq (e := e) (accuracyOfFraction (a % d) d) hlog he
  rw [shiftRight_fraction a hd] at hshift
  rw [roundWithAccuracy, hshift]
  dsimp only
  generalize (a / d).log2 = l at *
  have hunit : 0 < d * 2 ^ (l - 52) := Nat.mul_pos hd (Nat.two_pow_pos _)
  have hpow : 2 ^ l = 2 ^ 52 * 2 ^ (l - 52) := by rw [← Nat.pow_add, Nat.add_sub_cancel' hlog]
  rw [roundedMantissa_fraction a hunit]
  -- the rounded mantissa has 53 bits, or it is the least number with one more
  have hrounded : 2 ^ 52 ≤ Fixed.roundDiv a (d * 2 ^ (l - 52)) := by
    refine Fixed.le_roundDiv hunit ?_
    rw [Nat.mul_left_comm, ← hpow, Nat.mul_comm]
    exact (Nat.le_div_iff_mul_le hd).mp hfloor
  have hrounded' : Fixed.roundDiv a (d * 2 ^ (l - 52)) ≤ 2 ^ 53 := by
    refine Fixed.roundDiv_le hunit ?_
    rw [Nat.pow_succ, Nat.mul_right_comm, Nat.mul_left_comm, ← hpow, Nat.mul_assoc, ← Nat.pow_succ,
      Nat.mul_comm]
    exact (Nat.lt_mul_of_div_lt hceil hd).le
  obtain ⟨k, f, hcarry, hk, hk', hf, hf', hlevel⟩ :=
    exists_shiftToTargetExponent (e := e + (l - 52 : ℕ)) hrounded hrounded' (by omega)
  simp only [hcarry]
  rw [dif_neg (by omega), level_packed_finite _ hk hk' (by omega) (by omega), hlevel]
  omega

/-- Rounding keeps the sign. -/
lemma level_roundWithAccuracy_nonneg (m : ℕ) (e : ℤ) (x : Accuracy) :
    0 ≤ level (packed (roundWithAccuracy .binary64 .positive m e x)) := by
  rw [roundWithAccuracy]
  dsimp only
  split_ifs
  · rw [level_packed_zero]
  · exact level_packed_nonneg _

lemma level_normalize_nonneg {k : ℤ} (hk : 0 ≤ k) (e : ℤ) :
    0 ≤ level (packed (UnpackedFloat.normalize .binary64 k e .positive)) := by
  rw [UnpackedFloat.normalize]
  rcases hk.eq_or_lt with rfl | hpos
  · exact (level_packed_zero .positive).ge
  · rw [compare_gt_iff_gt.mpr hpos]
    exact level_roundWithAccuracy_nonneg _ _ _

/-! ### Differences -/

lemma sub_eq (x y : Float) :
    x - y = packed (UnpackedFloat.sub .binary64 x.toModel.unpack y.toModel.unpack) := rfl

section Differences

variable {x y margin : Float} (hy : 0 ≤ level y) (hyx : level y ≤ level x) (hx : level x < infinite)

include hy hyx hx

/-- What is not larger leaves nothing negative. -/
lemma level_sub_nonneg : 0 ≤ level (x - y) := by
  rw [sub_eq]
  rcases hy.eq_or_lt with hzero | hpos
  · obtain ⟨t, ht⟩ := exists_zero hzero.symm
    rcases (hy.trans hyx).eq_or_lt with hzero' | hpos'
    · obtain ⟨s, hs⟩ := exists_zero hzero'.symm
      rw [hs, ht, UnpackedFloat.sub]
      split_ifs <;> rw [level_packed_zero]
    · obtain ⟨m, e, hm, hparts, -⟩ := exists_parts hpos' hx
      rw [hparts, ht]
      exact level_packed_nonneg hm
  · obtain ⟨m, e, hm, hparts, hbits, hlow, hnormal, hlevel⟩ := exists_parts (hpos.trans_le hyx) hx
    obtain ⟨n, f, hn, hparts', hbits', hlow', hnormal', hlevel'⟩ :=
      exists_parts hpos (hyx.trans_lt hx)
    rw [hparts, hparts', UnpackedFloat.sub]
    refine level_normalize_nonneg ?_ _
    simp only [Sign.apply, Int.sub_nonneg, Int.ofNat_le, Nat.shiftLeft_eq]
    rcases lt_trichotomy f e with hlt | rfl | hlt
    · -- the higher exponent has a leading one, which makes up for any mantissa
      have hshift : (f - min e f).toNat = 0 := by omega
      have hshift' : 1 ≤ (e - min e f).toNat := by omega
      calc n * 2 ^ (f - min e f).toNat = n := by rw [hshift, Nat.pow_zero, Nat.mul_one]
        _ ≤ m * 2 ^ 1 := by omega
        _ ≤ m * 2 ^ (e - min e f).toNat :=
          Nat.mul_le_mul_left m (Nat.pow_le_pow_right Nat.two_pos hshift')
    · exact Nat.mul_le_mul_right _ (by omega)
    · omega

/-- A number is no further away from itself than from one that is not larger. -/
lemma sub_self_lt (h : x - y < margin) : x - x < margin := by
  have hself : ∃ s, x - x = packed (.zero s) := by
    rw [sub_eq]
    rcases (hy.trans hyx).eq_or_lt with hzero | hpos
    · obtain ⟨s, hs⟩ := exists_zero hzero.symm
      rw [hs, UnpackedFloat.sub]
      split_ifs
      · exact ⟨_, rfl⟩
      · exact ⟨_, rfl⟩
    · obtain ⟨m, e, hm, hparts, -⟩ := exists_parts hpos hx
      rw [hparts, UnpackedFloat.sub]
      dsimp only
      rw [Int.sub_self]
      exact ⟨_, rfl⟩
  obtain ⟨s, hself⟩ := hself
  obtain ⟨-, hmargin, hlt⟩ := lt_iff.mp h
  rw [hself, lt_iff, level_packed_zero]
  exact ⟨isNaN_packed_zero s, hmargin, (level_sub_nonneg hy hyx hx).trans_lt hlt⟩

end Differences

/-! ### Counts -/

lemma toFloat_eq {n : ℕ} (hpos : 0 < n) (hlt : n < 2 ^ 64) :
    n.toUInt64.toFloat = packed (UnpackedFloat.round .binary64 .positive n 0) := by
  have hmodel : n.toUInt64.toFloat
      = packed (UnpackedFloat.normalize .binary64 n.toUInt64.toNat 0 .positive) := rfl
  have hnat : n.toUInt64.toNat = n := Nat.mod_eq_of_lt hlt
  rw [hmodel, hnat, UnpackedFloat.normalize, compare_gt_iff_gt.mpr (by omega)]
  rfl

/-- The first 53 bits of a count, filled up if there are fewer and rounded if there are more. -/
def mantissa (n : ℕ) : ℕ := Fixed.roundDiv (n * 2 ^ (52 - n.log2)) (2 ^ (n.log2 - 52))

lemma mantissa_bounds {n : ℕ} (hpos : 0 < n) : 2 ^ 52 ≤ mantissa n ∧ mantissa n ≤ 2 ^ 53 := by
  obtain ⟨hfloor, hceil⟩ := (Nat.log2_eq_iff hpos.ne').mp rfl
  have hunit : 0 < 2 ^ (n.log2 - 52) := Nat.two_pow_pos _
  refine ⟨Fixed.le_roundDiv hunit ?_, Fixed.roundDiv_le hunit ?_⟩
  · calc 2 ^ 52 * 2 ^ (n.log2 - 52) = 2 ^ n.log2 * 2 ^ (52 - n.log2) := by
          rw [← Nat.pow_add, ← Nat.pow_add]
          congr 1
          omega
      _ ≤ n * 2 ^ (52 - n.log2) := Nat.mul_le_mul_right _ hfloor
  · calc n * 2 ^ (52 - n.log2) ≤ 2 ^ (n.log2 + 1) * 2 ^ (52 - n.log2) :=
          Nat.mul_le_mul_right _ hceil.le
      _ = 2 ^ 53 * 2 ^ (n.log2 - 52) := by
          rw [← Nat.pow_add, ← Nat.pow_add]
          congr 1
          omega

/-- The level of a count. -/
lemma level_toFloat {n : ℕ} (hpos : 0 < n) (hlt : n < 2 ^ 64) :
    level n.toUInt64.toFloat = mantissa n + (n.log2 + 1022) * 2 ^ 52 := by
  have hlog : n.log2 < 64 := (Nat.log2_lt hpos.ne').mpr hlt
  have hfilled : 0 < n * 2 ^ (52 - n.log2) := Nat.mul_pos hpos (Nat.two_pow_pos _)
  have hlog' : (n * 2 ^ (52 - n.log2)).log2 = n.log2 + (52 - n.log2) := by
    obtain ⟨hfloor, hceil⟩ := (Nat.log2_eq_iff hpos.ne').mp rfl
    refine (Nat.log2_eq_iff hfilled.ne').mpr ⟨?_, ?_⟩
    · rw [Nat.pow_add]
      exact Nat.mul_le_mul_right _ hfloor
    · rw [Nat.add_right_comm, Nat.pow_add]
      exact Nat.mul_lt_mul_of_pos_right hceil (Nat.two_pow_pos _)
  have hlow : 2 ^ 52 ≤ n * 2 ^ (52 - n.log2) := (Nat.le_log2 hfilled.ne').mp (by omega)
  have hshift : (0 - Format.binary64.targetExponent (totalExponent n 0)).toNat = 52 - n.log2 := by
    rw [targetExponent_eq, totalExponent]
    omega
  have hround := level_roundWithAccuracy (n * 2 ^ (52 - n.log2)) (d := 1)
    (e := 0 - (52 - n.log2 : ℕ)) Nat.one_pos (by rwa [Nat.div_one]) (by omega)
    (by rw [Nat.div_one, hlog']; omega)
  rw [Nat.div_one, hlog', Nat.one_mul, Nat.mod_one] at hround
  rw [show n.log2 + (52 - n.log2) - 52 = n.log2 - 52 by omega] at hround
  rw [toFloat_eq hpos hlt, UnpackedFloat.round, decreaseExponent, hshift, Nat.shiftLeft_eq,
    mantissa]
  refine hround.trans ?_
  omega

lemma level_toFloat_bounds {n : ℕ} (hpos : 0 < n) (hlt : n < 2 ^ 64) :
    1023 * 2 ^ 52 ≤ level n.toUInt64.toFloat ∧ level n.toUInt64.toFloat ≤ 1087 * 2 ^ 52 := by
  have hlog : n.log2 < 64 := (Nat.log2_lt hpos.ne').mpr hlt
  obtain ⟨hlow, hhigh⟩ := mantissa_bounds hpos
  rw [level_toFloat hpos hlt]
  omega

/-- Larger counts are not rounded to smaller doubles. -/
lemma level_toFloat_mono {n k : ℕ} (hpos : 0 < n) (hnk : n ≤ k) (hlt : k < 2 ^ 64) :
    level n.toUInt64.toFloat ≤ level k.toUInt64.toFloat := by
  have hpos' := hpos.trans_le hnk
  have hlog : n.log2 ≤ k.log2 :=
    (Nat.le_log2 hpos'.ne').mpr ((Nat.log2_self_le hpos.ne').trans hnk)
  rw [level_toFloat hpos (hnk.trans_lt hlt), level_toFloat hpos' hlt]
  rcases hlog.lt_or_eq with hlog | hlog
  · -- one more bit makes up for any mantissa
    have hn := (mantissa_bounds hpos).2
    have hk := (mantissa_bounds hpos').1
    omega
  · have hmantissa : mantissa n ≤ mantissa k := by
      rw [mantissa, mantissa, hlog]
      exact Fixed.roundDiv_mono _ (Nat.mul_le_mul_right _ hnk)
    omega

/-! ### Quotients of counts -/

lemma div_eq (x y : Float) :
    x / y = packed (UnpackedFloat.div .binary64 x.toModel.unpack y.toModel.unpack) := rfl

/-- The quotient of full mantissas has one bit more than them before it is rounded, or two. -/
lemma divCore_eq {m n : ℕ} {e f : ℤ} (hm : m.log2 = 52) (hn : n.log2 = 52) (hclose : f ≤ e + 1021) :
    divCore .binary64 m e n f
      = (m * 2 ^ 53 / n, e - f - 53, accuracyOfFraction (m * 2 ^ 53 % n) n) := by
  have htarget : Format.binary64.targetExponent (totalExponent m e - totalExponent n f)
      = e - f - 53 := by
    rw [targetExponent_eq, totalExponent, totalExponent, hm, hn]
    omega
  have hshift : (e - f - (e - f - 53)).toNat = 53 := by omega
  rw [divCore, htarget, min_eq_right (by omega), Nat.shiftLeft_eq, hshift]

/-- What is divided by something that is not smaller is not above one. -/
lemma level_div {x y : Float} (hx : 1023 * 2 ^ 52 ≤ level x) (hxy : level x ≤ level y)
    (hy : level y ≤ 1087 * 2 ^ 52) : 0 ≤ level (x / y) ∧ level (x / y) ≤ 1023 * 2 ^ 52 := by
  have hinfinite : infinite = 2047 * 2 ^ 52 := rfl
  obtain ⟨m, e, hm, hparts, hbits, -, hnormal, hlevel⟩ :=
    exists_parts (x := x) (by omega) (by omega)
  obtain ⟨n, f, hn, hparts', hbits', -, hnormal', hlevel'⟩ :=
    exists_parts (x := y) (by omega) (by omega)
  have hlog : m.log2 = 52 := (Nat.log2_eq_iff hm.ne').mpr ⟨by omega, hbits⟩
  have hlog' : n.log2 = 52 := (Nat.log2_eq_iff hn.ne').mpr ⟨by omega, hbits'⟩
  have hquotient : 2 ^ 52 ≤ m * 2 ^ 53 / n := (Nat.le_div_iff_mul_le hn).mpr (by omega)
  have hquotient' : m * 2 ^ 53 / n < 2 ^ 54 := (Nat.div_lt_iff_lt_mul hn).mpr (by omega)
  have hlow : 52 ≤ (m * 2 ^ 53 / n).log2 := (Nat.le_log2 (by omega)).mpr hquotient
  have hhigh : (m * 2 ^ 53 / n).log2 < 54 := (Nat.log2_lt (by omega)).mpr hquotient'
  have hround := level_roundWithAccuracy (m * 2 ^ 53) (e := e - f - 53) hn hquotient (by omega)
    (by omega)
  have hdiv : level (x / y) = level (packed (roundWithAccuracy .binary64 .positive
      (m * 2 ^ 53 / n) (e - f - 53) (accuracyOfFraction (m * 2 ^ 53 % n) n))) := by
    rw [div_eq, hparts, hparts', UnpackedFloat.div, divCore_eq hlog hlog' (by omega)]
    rfl
  rw [hdiv, hround]
  generalize hl : (m * 2 ^ 53 / n).log2 = l at *
  -- mantissas with a quotient below one leave room to round up; others need the lower exponent, or
  -- are the same
  rcases (show l = 52 ∨ l = 53 by omega) with rfl | rfl
  · have hmantissa : Fixed.roundDiv (m * 2 ^ 53) (n * 2 ^ (52 - 52)) ≤ 2 ^ 53 := by
      obtain ⟨-, hceil⟩ := (Nat.log2_eq_iff (by omega)).mp hl
      refine Fixed.roundDiv_le (by omega) ?_
      rw [Nat.sub_self, Nat.pow_zero, Nat.mul_one]
      exact (Nat.lt_mul_of_div_lt hceil hn).le
    omega
  · rcases (show e < f ∨ e = f ∧ m ≤ n by omega) with hlt | ⟨rfl, hle⟩
    · have hmantissa : Fixed.roundDiv (m * 2 ^ 53) (n * 2 ^ (53 - 52)) ≤ 2 ^ 53 :=
        Fixed.roundDiv_le (by omega) (by omega)
      omega
    · have hmantissa : Fixed.roundDiv (m * 2 ^ 53) (n * 2 ^ (53 - 52)) ≤ 2 ^ 52 :=
        Fixed.roundDiv_le (by omega) (by omega)
      omega

/-- A part of a count is not above one as a share of it. -/
lemma level_div_toFloat {n k : ℕ} (hpos : 0 < k) (hnk : n ≤ k) (hlt : k < 2 ^ 64) :
    0 ≤ level (n.toUInt64.toFloat / k.toUInt64.toFloat)
      ∧ level (n.toUInt64.toFloat / k.toUInt64.toFloat) ≤ 1023 * 2 ^ 52 := by
  obtain ⟨hlow, hhigh⟩ := level_toFloat_bounds hpos hlt
  rcases n.eq_zero_or_pos with rfl | hpos'
  · have hinfinite : infinite = 2047 * 2 ^ 52 := rfl
    obtain ⟨s, hs⟩ := exists_zero (x := (0 : ℕ).toUInt64.toFloat) (by decide)
    obtain ⟨m, e, hm, hparts, -⟩ := exists_parts (x := k.toUInt64.toFloat) (by omega) (by omega)
    rw [div_eq, hs, hparts, UnpackedFloat.div, level_packed_zero]
    decide
  · exact level_div (level_toFloat_bounds hpos' (hnk.trans_lt hlt)).1
      (level_toFloat_mono hpos' hnk hlt) hhigh

end Score

open Score in
/-- **The cap of a ratio does not act**: the ratio of a part and a whole is their quotient. -/
lemma ratio_eq_div {part total : ℕ} (hpos : 0 < total) (hle : part ≤ total) (hlt : total < 2 ^ 64) :
    ratio part total = part.toUInt64.toFloat / total.toUInt64.toFloat := by
  obtain ⟨hlow, hhigh⟩ := level_div_toFloat hpos hle hlt
  rw [ratio, if_neg hpos.ne']
  dsimp only
  generalize part.toUInt64.toFloat / total.toUInt64.toFloat = q at *
  split_ifs with hbelow
  · rfl
  · -- what is neither below one nor above it is one
    have hone : level 1.0 = 1023 * 2 ^ 52 := by decide
    have hone' : orderKey 1.0 = 2 ^ 63 + 1023 * 2 ^ 52 := by decide
    have hinfinite : infinite = 2047 * 2 ^ 52 := rfl
    have hcases := magnitude_cases q
    have hnumber : q.isNaN = false := by
      rw [← Bool.not_eq_true, isNaN_eq_true_iff]
      omega
    have hnot : ¬ level q < level 1.0 := fun h => hbelow (lt_iff.mpr ⟨hnumber, isNaN_one, h⟩)
    refine (orderKey_inj.mp ?_).symm
    omega

end OpcodeRecovery
