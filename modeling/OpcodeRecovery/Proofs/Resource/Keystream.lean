import Mathlib.Tactic
import OpcodeRecovery.Resource.Keystream

/-!
The states of the keystream.

Stirring is made of three steps of one kind: a word is combined with a shifted copy of itself. Such a
step loses nothing, since each bit of the copy is a bit that was recovered before it, from the
lowest one up if the shift is to the left, and from the highest one down if it is to the right.

* `Keystream.xor_injective_of_settled` is that argument, for any way to order the bits, and
  `Keystream.next_injective` is what follows for the three steps together.
* `Keystream.stateAfter_ne_zero`: zero is stirred into zero, so no other state is; and no seed
  starts from zero.
* `Keystream.bytes_eq_map`: the key bytes are those of the states after one step, two steps and so
  on, so what is proved of these states is proved of the keystream that masks a body.
-/

namespace OpcodeRecovery

namespace Keystream

/-! ### Words and their shifted copies -/

/-- A word is told from its combination with `s` of it, if the bits that `s` takes to a place have
a lower rank than that place. -/
lemma xor_injective_of_settled {w : ℕ} {s : BitVec w → BitVec w} (rank : ℕ → ℕ)
    (h : ∀ x y : BitVec w, ∀ i, (∀ j, rank j < rank i → x.getLsbD j = y.getLsbD j) →
      (s x).getLsbD i = (s y).getLsbD i) :
    Function.Injective fun x => x ^^^ s x := by
  intro x y hxy
  have hbit : ∀ r i, rank i = r → x.getLsbD i = y.getLsbD i := by
    intro r
    induction r using Nat.strong_induction_on with
    | _ r ih =>
        rintro i rfl
        have hcopy := h x y i fun j hj => ih (rank j) hj j rfl
        have hi : (x ^^^ s x).getLsbD i = (y ^^^ s y).getLsbD i := congrArg (·.getLsbD i) hxy
        rw [BitVec.getLsbD_xor, BitVec.getLsbD_xor, hcopy] at hi
        exact Bool.xor_left_inj.mp hi
  exact BitVec.eq_of_getLsbD_eq fun i _ => hbit (rank i) i rfl

lemma xor_shiftLeft_injective {w k : ℕ} (hk : 0 < k) :
    Function.Injective fun x : BitVec w => x ^^^ x <<< k := by
  refine xor_injective_of_settled (fun i => i) fun x y i hlower => ?_
  rw [BitVec.getLsbD_shiftLeft, BitVec.getLsbD_shiftLeft]
  by_cases hi : i < k
  · simp [hi]
  · rw [hlower (i - k) (by omega)]

lemma xor_ushiftRight_injective {w k : ℕ} (hk : 0 < k) :
    Function.Injective fun x : BitVec w => x ^^^ x >>> k := by
  refine xor_injective_of_settled (fun i => w - i) fun x y i hhigher => ?_
  rw [BitVec.getLsbD_ushiftRight, BitVec.getLsbD_ushiftRight]
  by_cases hi : i < w
  · exact hhigher (k + i) (by omega)
  · rw [BitVec.getLsbD_of_ge x _ (by omega), BitVec.getLsbD_of_ge y _ (by omega)]

/-! ### Stirring -/

/-- What loses nothing of the bits of a word loses nothing of the word. -/
lemma injective_of_toBitVec {f : UInt32 → UInt32} {g : BitVec 32 → BitVec 32}
    (hg : Function.Injective g) (h : ∀ x, (f x).toBitVec = g x.toBitVec) : Function.Injective f := by
  intro x y hxy
  apply UInt32.toBitVec_inj.mp
  apply hg
  rw [← h, ← h, hxy]

/-- Distinct states are stirred into distinct states. -/
theorem next_injective : Function.Injective next := by
  have hfirst : Function.Injective fun x : UInt32 => x ^^^ x <<< 13 :=
    injective_of_toBitVec (xor_shiftLeft_injective (k := 13) (by decide)) fun _ => rfl
  have hsecond : Function.Injective fun x : UInt32 => x ^^^ x >>> 17 :=
    injective_of_toBitVec (xor_ushiftRight_injective (k := 17) (by decide)) fun _ => rfl
  have hthird : Function.Injective fun x : UInt32 => x ^^^ x <<< 5 :=
    injective_of_toBitVec (xor_shiftLeft_injective (k := 5) (by decide)) fun _ => rfl
  exact hthird.comp (hsecond.comp hfirst)

lemma next_ne_zero {state : UInt32} (h : state ≠ 0) : next state ≠ 0 := by
  intro hzero
  exact h (next_injective (hzero.trans (show (0 : UInt32) = next 0 by decide)))

lemma start_ne_zero (seed : UInt32) : start seed ≠ 0 := by
  rw [start]
  split_ifs with h
  · decide
  · exact h

/-- No seed ever comes to zero. -/
lemma stateAfter_ne_zero (seed : UInt32) (n : ℕ) : stateAfter seed n ≠ 0 := by
  induction n with
  | zero => exact start_ne_zero seed
  | succ n ih => exact next_ne_zero ih

/-! ### The bytes and their states -/

lemma stateAfter_eq_iterate (seed : UInt32) (n : ℕ) : stateAfter seed n = next^[n] (start seed) := by
  induction n with
  | zero => rfl
  | succ n ih => rw [stateAfter, ih, Function.iterate_succ_apply']

lemma bytesFrom_eq_map (n : ℕ) (state : UInt32) :
    bytesFrom n state = (List.range n).map fun i => keyByte (next^[i + 1] state) := by
  induction n generalizing state with
  | zero => rfl
  | succ n ih =>
      rw [bytesFrom, ih, List.range_succ_eq_map, List.map_cons, List.map_map]
      rfl

/-- Each key byte is that of the state after it. -/
lemma bytes_eq_map (seed : UInt32) (n : ℕ) :
    bytes seed n = (List.range n).map fun i => keyByte (stateAfter seed (i + 1)) := by
  simp only [bytes, bytesFrom_eq_map, stateAfter_eq_iterate]

/-- **The keystream never runs dry**: the states that its bytes are taken from are never zero,
whatever the seed and however long it runs; and two states that differ are stirred into two that
differ, so they never come together again. -/
theorem state_never_zero :
    (∀ seed n, bytes seed n = (List.range n).map fun i => keyByte (stateAfter seed (i + 1)))
    ∧ (∀ seed n, stateAfter seed n ≠ 0)
    ∧ Function.Injective next ∧ ∀ n, Function.Injective next^[n] :=
  ⟨bytes_eq_map, stateAfter_ne_zero, next_injective, next_injective.iterate⟩

end Keystream

end OpcodeRecovery
