import Mathlib.Tactic
import OpcodeRecovery.Resource.Format

/-!
Masking and unmasking bodies.

A byte and its key byte determine the masked byte, and the key byte alone undoes the masking
(`Version.decodeByte_encodeByte`); since a masked body has the length of the plain one, both
sides run through the same keystream, and `Version.decode_encode` follows byte by byte. The other
way round is `Version.encode_decode`.

The keystream of a prefix is a prefix of the keystream (`Keystream.take_bytes`), so a body can be
masked and unmasked as far as it is known. `Version.masking_bijective` joins these facts.
-/

namespace OpcodeRecovery

/-! ### The keystream -/

namespace Keystream

@[simp] lemma length_bytesFrom (n : ℕ) (state : UInt32) : (bytesFrom n state).length = n := by
  induction n generalizing state with
  | zero => rfl
  | succ n ih => rw [bytesFrom, List.length_cons, ih]

@[simp] lemma length_bytes (seed : UInt32) (n : ℕ) : (bytes seed n).length = n :=
  length_bytesFrom n (start seed)

lemma take_bytesFrom (k n : ℕ) (state : UInt32) :
    (bytesFrom n state).take k = bytesFrom (min k n) state := by
  induction n generalizing k state with
  | zero => simp [bytesFrom]
  | succ n ih =>
      cases k with
      | zero => rw [List.take_zero, Nat.zero_min, bytesFrom]
      | succ k => rw [Nat.succ_min_succ, bytesFrom, bytesFrom, List.take_succ_cons, ih]

/-- The first key bytes do not depend on how many are asked for. -/
lemma take_bytes (seed : UInt32) (k n : ℕ) : (bytes seed n).take k = bytes seed (min k n) :=
  take_bytesFrom k n (start seed)

end Keystream

namespace Resource.Version

/-! ### One byte -/

/-- Rotating to the right undoes rotating to the left, by any number of places. -/
lemma rotateRight_rotateLeft (x : BitVec 8) (r : ℕ) : (x.rotateLeft r).rotateRight r = x := by
  ext i hi
  simp only [BitVec.getElem_rotateRight, BitVec.getElem_rotateLeft]
  grind

lemma rotateLeft_rotateRight (x : BitVec 8) (r : ℕ) : (x.rotateRight r).rotateLeft r = x := by
  ext i hi
  simp only [BitVec.getElem_rotateRight, BitVec.getElem_rotateLeft]
  grind

/-- A key byte undoes its own masking. -/
lemma decodeByte_encodeByte (v : Version) (r : ℕ) (key byte : UInt8) :
    v.decodeByte r key (v.encodeByte r key byte) = byte := by
  cases v with
  | v1 => rw [encodeByte, decodeByte, UInt8.xor_assoc, UInt8.xor_self, UInt8.xor_zero]
  | v2 =>
      simp only [encodeByte, decodeByte, rotateRight_rotateLeft]
      rw [UInt8.ofBitVec_toBitVec, UInt8.xor_assoc, UInt8.xor_self, UInt8.xor_zero]

/-- A key byte redoes what it has undone. -/
lemma encodeByte_decodeByte (v : Version) (r : ℕ) (key byte : UInt8) :
    v.encodeByte r key (v.decodeByte r key byte) = byte := by
  cases v with
  | v1 => rw [encodeByte, decodeByte, UInt8.xor_assoc, UInt8.xor_self, UInt8.xor_zero]
  | v2 =>
      simp only [encodeByte, decodeByte]
      rw [UInt8.xor_assoc, UInt8.xor_self, UInt8.xor_zero, rotateLeft_rotateRight,
        UInt8.ofBitVec_toBitVec]

/-! ### Whole bodies -/

@[simp] lemma length_encode (v : Version) (seed : UInt32) (plain : Bytes) :
    (v.encode seed plain).length = plain.length := by
  simp [encode]

@[simp] lemma length_decode (v : Version) (seed : UInt32) (masked : Bytes) :
    (v.decode seed masked).length = masked.length := by
  simp [decode]

/-- Byte by byte, `g` undoes `f` along any list of keys that is long enough. -/
lemma zipWith_cancel {f g : UInt8 → UInt8 → UInt8} (h : ∀ k b, g k (f k b) = b) (keys bs : Bytes)
    (hlen : bs.length ≤ keys.length) : List.zipWith g keys (List.zipWith f keys bs) = bs := by
  induction bs generalizing keys with
  | nil => simp
  | cons b bs ih =>
      cases keys with
      | nil => simp at hlen
      | cons k keys =>
          simp only [List.length_cons] at hlen
          simp only [List.zipWith_cons_cons, h, ih keys (by omega)]

/-- **Unmasking after masking** gives the plain bytes back. -/
theorem decode_encode (v : Version) (seed : UInt32) (plain : Bytes) :
    v.decode seed (v.encode seed plain) = plain := by
  rw [decode, length_encode, encode]
  exact zipWith_cancel (decodeByte_encodeByte v (rotation seed)) _ plain (by simp)

/-- **Masking after unmasking** gives the masked bytes back. -/
theorem encode_decode (v : Version) (seed : UInt32) (masked : Bytes) :
    v.encode seed (v.decode seed masked) = masked := by
  rw [encode, length_decode, decode]
  exact zipWith_cancel (encodeByte_decodeByte v (rotation seed)) _ masked (by simp)

/-! ### Prefixes -/

/-- What is done byte by byte along the keystream is done to a prefix as it is to the whole. -/
lemma zipWith_bytes_take (f : UInt8 → UInt8 → UInt8) (seed : UInt32) (bs : Bytes) (n : ℕ) :
    List.zipWith f (Keystream.bytes seed (bs.take n).length) (bs.take n)
      = (List.zipWith f (Keystream.bytes seed bs.length) bs).take n := by
  rw [List.take_zipWith, Keystream.take_bytes, List.length_take]

/-- **Masking is a bijection of the bodies of each length**, whatever the version and the seed, and
unmasking is its inverse. Both take a prefix of a body to the prefix, of the same length, of what
they take the body to. -/
theorem masking_bijective (v : Version) (seed : UInt32) (x : Bytes) :
    v.decode seed (v.encode seed x) = x ∧ v.encode seed (v.decode seed x) = x
    ∧ (v.encode seed x).length = x.length ∧ (v.decode seed x).length = x.length
    ∧ ∀ n, v.encode seed (x.take n) = (v.encode seed x).take n
      ∧ v.decode seed (x.take n) = (v.decode seed x).take n :=
  ⟨decode_encode v seed x, encode_decode v seed x, length_encode v seed x, length_decode v seed x,
    fun n => ⟨zipWith_bytes_take _ seed x n, zipWith_bytes_take _ seed x n⟩⟩

end Resource.Version

end OpcodeRecovery
