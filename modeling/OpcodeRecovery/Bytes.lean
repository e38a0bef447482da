/-!
Byte strings and the little-endian numbers inside them.

* `Bytes.toNatLE` reads a byte string as a number, least significant byte first, and
  `Bytes.ofNatLE n v` writes the low `n` bytes of `v`. `toNatLE_ofNatLE` and
  `ofNatLE_toNatLE` say that the two undo each other, up to the `capacity` of `n` bytes.
* `Bytes.split?` cuts a given number of bytes off the front, and refuses when there are
  too few; `Bytes.number?` reads the bytes it cuts off as a number. Both return what is
  left, so readers compose.
-/

namespace OpcodeRecovery

/-- A byte string. -/
abbrev Bytes := List UInt8

namespace Bytes

/-! ### Little-endian numbers -/

/-- The number a byte string spells, least significant byte first. -/
def toNatLE : Bytes → Nat
  | [] => 0
  | b :: rest => b.toNat + 256 * toNatLE rest

/-- The low `n` bytes of a number, least significant byte first. -/
def ofNatLE : Nat → Nat → Bytes
  | 0, _ => []
  | n + 1, v => UInt8.ofNat v :: ofNatLE n (v / 256)

/-- How many numbers `n` bytes can spell. -/
def capacity : Nat → Nat
  | 0 => 1
  | n + 1 => 256 * capacity n

@[simp]
theorem length_ofNatLE (n v : Nat) : (ofNatLE n v).length = n := by
  induction n generalizing v with
  | zero => rfl
  | succ n ih => simp [ofNatLE, ih]

/-- A byte string spells a number that its length has room for. -/
theorem toNatLE_lt (bs : Bytes) : toNatLE bs < capacity bs.length := by
  induction bs with
  | nil => simp [toNatLE, capacity]
  | cons b rest ih =>
    have hb := b.toNat_lt
    simp only [toNatLE, List.length_cons, capacity]
    omega

theorem capacity_pos (n : Nat) : 0 < capacity n := by
  induction n with
  | zero => decide
  | succ n ih => rw [capacity]; omega

/-- The first `n` bytes spell a number that `n` bytes have room for, also if there are fewer. -/
theorem toNatLE_take_lt (n : Nat) (bs : Bytes) : toNatLE (bs.take n) < capacity n := by
  induction n generalizing bs with
  | zero => simp [toNatLE, capacity]
  | succ n ih =>
    cases bs with
    | nil => exact capacity_pos (n + 1)
    | cons b rest =>
      have hb := b.toNat_lt
      have hrest := ih rest
      simp only [List.take_succ_cons, toNatLE, capacity]
      omega

/-- Writing and reading back keeps the number modulo what there is room for. -/
theorem toNatLE_ofNatLE (n v : Nat) : toNatLE (ofNatLE n v) = v % capacity n := by
  induction n generalizing v with
  | zero => simp [ofNatLE, toNatLE, capacity, Nat.mod_one]
  | succ n ih =>
    simp only [ofNatLE, toNatLE, ih, UInt8.toNat_ofNat', capacity]
    rw [Nat.mod_mul]

theorem toNatLE_ofNatLE_of_lt {n v : Nat} (h : v < capacity n) : toNatLE (ofNatLE n v) = v := by
  rw [toNatLE_ofNatLE, Nat.mod_eq_of_lt h]

/-- Every byte string is what its own number writes. -/
theorem ofNatLE_toNatLE (bs : Bytes) : ofNatLE bs.length (toNatLE bs) = bs := by
  induction bs with
  | nil => rfl
  | cons b rest ih =>
    have hb := b.toNat_lt
    have hdiv : (b.toNat + 256 * toNatLE rest) / 256 = toNatLE rest := by omega
    have hmod : UInt8.ofNat (b.toNat + 256 * toNatLE rest) = b := by
      apply UInt8.toNat_inj.1
      rw [UInt8.toNat_ofNat']
      omega
    simp only [List.length_cons, toNatLE, ofNatLE, hdiv, hmod, ih]

/-! ### Cutting bytes off the front -/

/-- Cuts `n` bytes off the front; `none` if there are fewer. -/
def split? (n : Nat) (bs : Bytes) : Option (Bytes × Bytes) :=
  if n ≤ bs.length then some (bs.take n, bs.drop n) else none

/-- Reads the first `n` bytes as a little-endian number and returns the rest with it. -/
def number? (n : Nat) (bs : Bytes) : Option (Nat × Bytes) :=
  (split? n bs).map fun (head, rest) => (toNatLE head, rest)

/-- A cut succeeds exactly on strings that start with `n` bytes. -/
theorem split?_eq_some_iff {n : Nat} {bs head rest : Bytes} :
    split? n bs = some (head, rest) ↔ bs = head ++ rest ∧ head.length = n := by
  unfold split?
  constructor
  · intro h
    split at h
    · rename_i hn
      simp only [Option.some.injEq, Prod.mk.injEq] at h
      obtain ⟨rfl, rfl⟩ := h
      exact ⟨(List.take_append_drop n bs).symm, by simp [Nat.min_eq_left hn]⟩
    · cases h
  · rintro ⟨rfl, rfl⟩
    simp

theorem split?_append (head rest : Bytes) :
    split? head.length (head ++ rest) = some (head, rest) :=
  split?_eq_some_iff.2 ⟨rfl, rfl⟩

/-- A number written in `n` bytes is read back modulo their capacity, whatever follows. -/
theorem number?_ofNatLE_append (n v : Nat) (rest : Bytes) :
    number? n (ofNatLE n v ++ rest) = some (v % capacity n, rest) := by
  have h := split?_append (ofNatLE n v) rest
  rw [length_ofNatLE] at h
  simp [number?, h, toNatLE_ofNatLE]

end Bytes

end OpcodeRecovery
