import Mathlib.Tactic
import OpcodeRecovery.Proofs.Bytes.SevenBit
import OpcodeRecovery.Proofs.Outcome
import OpcodeRecovery.Resource.Archive

/-!
What stands in front of the bodies of a resource, and what is read of it.

* `Resource.Front` is a header as the format has it: version, flags, and a numeral for the number
  of methods. `Resource.readHeader_eq_ok_iff` says that a header is read exactly where the bytes of
  a front are followed by room for the directory.
* `Resource.entryAt` is the directory entry at a position, field by field.
  `Resource.readMany_eq` says that the directory is read as the entries at every twelfth position.
* `Archive.ofResource_eq_ok_iff` puts the two together: a resource is opened exactly if it starts
  with a front and a directory that names no method twice.
-/

namespace OpcodeRecovery

/-! ### Numbers -/

/-- A number is read exactly where it is written. -/
lemma Bytes.number?_eq_some_iff {n v : ℕ} {bs rest : Bytes} :
    Bytes.number? n bs = some (v, rest) ↔ v < Bytes.capacity n ∧ bs = Bytes.ofNatLE n v ++ rest := by
  constructor
  · intro h
    obtain ⟨⟨head, tail⟩, hsplit, heq⟩ := Option.map_eq_some_iff.mp h
    obtain ⟨rfl, rfl⟩ := Prod.mk.inj heq
    obtain ⟨rfl, rfl⟩ := Bytes.split?_eq_some_iff.mp hsplit
    exact ⟨Bytes.toNatLE_lt head, by rw [Bytes.ofNatLE_toNatLE]⟩
  · rintro ⟨hv, rfl⟩
    rw [Bytes.number?_ofNatLE_append, Nat.mod_eq_of_lt hv]

namespace Resource

lemma Version.ofNumber_eq_ok_iff {n : UInt16} {v : Version} :
    Version.ofNumber n = .ok v ↔ n = v.number := by
  constructor
  · intro h
    rw [Version.ofNumber, Version.ofNumber?] at h
    split_ifs at h with h₁ h₂ <;> cases h
    · exact h₁
    · exact h₂
  · rintro rfl
    cases v <;> rfl

lemma Flags.ofBits?_eq_some_iff {w : ℕ} {f : Flags} : Flags.ofBits? w = some f ↔ w = f.bits := by
  constructor
  · intro h
    rw [Flags.ofBits?] at h
    split_ifs at h with h₁ h₂ <;> cases h
    · exact h₁
    · exact h₂
  · rintro rfl
    obtain ⟨checksums⟩ := f
    cases checksums <;> rfl

lemma Version.ofNumber_number (v : Version) : Version.ofNumber v.number = .ok v :=
  Version.ofNumber_eq_ok_iff.mpr rfl

lemma Flags.ofBits?_bits (f : Flags) : Flags.ofBits? f.bits = some f :=
  Flags.ofBits?_eq_some_iff.mpr rfl

lemma Flags.bits_lt (f : Flags) : f.bits < Bytes.capacity 2 := by
  obtain ⟨checksums⟩ := f
  cases checksums <;> decide

/-! ### The header -/

/-- What stands in front of a directory: a version, flags, and the number of methods in one of its
numerals. -/
structure Front where
  version : Version
  flags : Flags
  count : ℕ
  numeral : Bytes
  spells : SevenBit.Numeral numeral count

namespace Front

/-- The bytes of a front. -/
def bytes (f : Front) : Bytes :=
  magic ++ (Bytes.ofNatLE 2 f.version.number.toNat ++ (Bytes.ofNatLE 2 f.flags.bits ++ f.numeral))

/-- What a front says: where it ends the directory starts, and the bodies start behind that. -/
def header (f : Front) : Header :=
  ⟨f.version, f.flags, f.count, f.bytes.length, f.bytes.length + entrySize * f.count⟩

end Front

/-- A front is read where it is followed by room for the directory. -/
lemma readHeader_append {f : Front} {rest : Bytes} (hroom : entrySize * f.count ≤ rest.length) :
    readHeader (f.bytes ++ rest) = .ok f.header := by
  have hmagic : Bytes.split? magic.length (f.bytes ++ rest)
      = some (magic, Bytes.ofNatLE 2 f.version.number.toNat
        ++ (Bytes.ofNatLE 2 f.flags.bits ++ (f.numeral ++ rest))) := by
    simp only [Front.bytes, List.append_assoc, Bytes.split?_append]
  have hversion := Bytes.number?_eq_some_iff.mpr ⟨f.version.number.toNat_lt,
    rfl (a := Bytes.ofNatLE 2 f.version.number.toNat
      ++ (Bytes.ofNatLE 2 f.flags.bits ++ (f.numeral ++ rest)))⟩
  have hflags := Bytes.number?_eq_some_iff.mpr ⟨f.flags.bits_lt,
    rfl (a := Bytes.ofNatLE 2 f.flags.bits ++ (f.numeral ++ rest))⟩
  have hcount : SevenBit.decode? (f.numeral ++ rest) = some (f.count, rest) :=
    SevenBit.decode?_eq_some_iff.mpr ⟨f.numeral, rfl, f.spells⟩
  have hstart : (f.bytes ++ rest).length - rest.length = f.bytes.length := by
    rw [List.length_append]
    omega
  simp only [readHeader, hmagic, hversion, UInt16.ofNat_toNat, Version.ofNumber_number, hflags,
    Flags.ofBits?_bits, hcount, hstart, not_lt.mpr hroom, require_some, ok_bind, ne_eq,
    not_true_eq_false, if_false, pure_eq_ok, Front.header, gt_iff_lt]

/-- **What is read as a header**: exactly the fronts that are followed by room for the directory. -/
theorem readHeader_eq_ok_iff {data : Bytes} {header : Header} :
    readHeader data = .ok header
      ↔ ∃ (f : Front) (rest : Bytes), data = f.bytes ++ rest
        ∧ entrySize * f.count ≤ rest.length ∧ header = f.header := by
  constructor
  · intro h
    have hread := h
    obtain ⟨⟨found, bs₁⟩, hmagic, h⟩ := bind_eq_ok_iff.mp h
    dsimp only at h
    split_ifs at h with hne
    · cases h
    obtain ⟨⟨number, bs₂⟩, hnumber, h⟩ := bind_eq_ok_iff.mp h
    obtain ⟨version, hversion, h⟩ := bind_eq_ok_iff.mp h
    obtain ⟨⟨bits, bs₃⟩, hbits, h⟩ := bind_eq_ok_iff.mp h
    obtain ⟨flags, hflags, h⟩ := bind_eq_ok_iff.mp h
    obtain ⟨⟨count, rest⟩, hcount, h⟩ := bind_eq_ok_iff.mp h
    dsimp only at h
    split_ifs at h with hroom
    · cases h
    -- every step cuts its bytes off the front
    obtain ⟨rfl, -⟩ := Bytes.split?_eq_some_iff.mp (require_eq_ok_iff.mp hmagic)
    obtain ⟨hlt, rfl⟩ := Bytes.number?_eq_some_iff.mp (require_eq_ok_iff.mp hnumber)
    obtain ⟨-, rfl⟩ := Bytes.number?_eq_some_iff.mp (require_eq_ok_iff.mp hbits)
    obtain ⟨numeral, rfl, hspells⟩ := SevenBit.decode?_eq_some_iff.mp (require_eq_ok_iff.mp hcount)
    obtain rfl := Flags.ofBits?_eq_some_iff.mp (require_eq_ok_iff.mp hflags)
    obtain rfl := not_not.mp hne
    obtain rfl : number = version.number.toNat :=
      (UInt16.toNat_ofNat_of_lt hlt).symm.trans
        (congrArg UInt16.toNat (Version.ofNumber_eq_ok_iff.mp hversion))
    let f : Front := ⟨version, flags, count, numeral, hspells⟩
    have hdata : magic ++ (Bytes.ofNatLE 2 version.number.toNat
        ++ (Bytes.ofNatLE 2 flags.bits ++ (numeral ++ rest))) = f.bytes ++ rest := by
      simp only [f, Front.bytes, List.append_assoc]
    rw [hdata, readHeader_append (not_lt.mp hroom)] at hread
    exact ⟨f, rest, hdata, not_lt.mp hroom, (Except.ok.inj hread).symm⟩
  · rintro ⟨f, rest, rfl, hroom, rfl⟩
    exact readHeader_append hroom

/-! ### The directory -/

/-- The number in some bytes at a position, low bytes first. -/
def field (data : Bytes) (position width : ℕ) : ℕ :=
  Bytes.toNatLE ((data.drop position).take width)

/-- The entry in the twelve bytes at a position: token, seed and place. -/
def entryAt (data : Bytes) (position : ℕ) : Entry :=
  ⟨⟨⟨UInt32.ofNat (field data position 4)⟩, UInt32.ofNat (field data (position + 4) 4)⟩,
    field data (position + 8) 4⟩

/-- The entries that a header announces. -/
def directory (data : Bytes) (header : Header) : List Entry :=
  (List.range header.methodCount).map fun i =>
    entryAt data (header.directoryStart + entrySize * i)

lemma field_drop (data : Bytes) (k position width : ℕ) :
    field (data.drop k) position width = field data (k + position) width := by
  rw [field, field, List.drop_drop]

lemma entryAt_drop (data : Bytes) (k position : ℕ) :
    entryAt (data.drop k) position = entryAt data (k + position) := by
  simp only [entryAt, field_drop, Nat.add_assoc]

/-- A field is a matter of the bytes up to its end. -/
lemma field_take {data : Bytes} {n position width : ℕ} (h : position + width ≤ n) :
    field (data.take n) position width = field data position width := by
  rw [field, field, List.drop_take, List.take_take, Nat.min_eq_left (by omega)]

lemma entryAt_take {data : Bytes} {n position : ℕ} (h : position + entrySize ≤ n) :
    entryAt (data.take n) position = entryAt data position := by
  rw [entrySize] at h
  simp only [entryAt, field_take (show position + 4 ≤ n by omega),
    field_take (show position + 4 + 4 ≤ n by omega),
    field_take (show position + 8 + 4 ≤ n by omega)]

/-- The directory is a matter of the bytes in front of the bodies. -/
lemma directory_take {data : Bytes} {header : Header}
    (h : header.bodyStart = header.directoryStart + entrySize * header.methodCount) :
    directory (data.take header.bodyStart) header = directory data header := by
  refine List.map_congr_left fun i hi => entryAt_take ?_
  have hi' := List.mem_range.mp hi
  rw [h, entrySize]
  omega

lemma number?_drop {n k : ℕ} {bs : Bytes} (h : k + n ≤ bs.length) :
    Bytes.number? n (bs.drop k) = some (field bs k n, bs.drop (k + n)) := by
  have hlen : n ≤ (bs.drop k).length := by
    rw [List.length_drop]
    omega
  rw [Bytes.number?, Bytes.split?, if_pos hlen, List.drop_drop]
  rfl

/-- An entry is read where there are twelve bytes. -/
lemma read?_eq (bs : Bytes) :
    Entry.read? bs
      = if entrySize ≤ bs.length then some (entryAt bs 0, bs.drop entrySize) else none := by
  split_ifs with h
  · rw [entrySize] at h
    have htoken : Bytes.number? 4 bs = some (field bs 0 4, bs.drop 4) :=
      number?_drop (k := 0) (by omega)
    have hseed : Bytes.number? 4 (bs.drop 4) = some (field bs 4 4, bs.drop 8) :=
      number?_drop (by omega)
    have hplace : Bytes.number? 4 (bs.drop 8) = some (field bs 8 4, bs.drop 12) :=
      number?_drop (by omega)
    simp only [Entry.read?, htoken, hseed, hplace, Option.bind_eq_bind, Option.bind_some]
    rfl
  · refine Option.eq_none_iff_forall_ne_some.mpr fun ⟨e, rest⟩ hread => h ?_
    obtain ⟨⟨token, bs₁⟩, htoken, hread⟩ := Option.bind_eq_some_iff.mp hread
    obtain ⟨⟨seed, bs₂⟩, hseed, hread⟩ := Option.bind_eq_some_iff.mp hread
    obtain ⟨⟨place, bs₃⟩, hplace, -⟩ := Option.bind_eq_some_iff.mp hread
    obtain ⟨-, rfl⟩ := Bytes.number?_eq_some_iff.mp htoken
    obtain ⟨-, rfl⟩ := Bytes.number?_eq_some_iff.mp hseed
    obtain ⟨-, rfl⟩ := Bytes.number?_eq_some_iff.mp hplace
    simp only [List.length_append, Bytes.length_ofNatLE, entrySize]
    omega

/-- Where there is room for them, the entries are read one after the other. -/
lemma readMany_eq {n : ℕ} {bs : Bytes} (h : entrySize * n ≤ bs.length) :
    Entry.readMany n bs = (List.range n).map fun i => entryAt bs (entrySize * i) := by
  induction n generalizing bs with
  | zero => rfl
  | succ n ih =>
      rw [Nat.mul_add_one] at h
      have hrest : entrySize * n ≤ (bs.drop entrySize).length := by
        rw [List.length_drop]
        omega
      rw [Entry.readMany, read?_eq, if_pos (by omega)]
      simp only [ih hrest, List.range_succ_eq_map, List.map_cons, List.map_map, Nat.mul_zero,
        entryAt_drop, Function.comp_def, Nat.mul_add_one, Nat.add_comm]

/-- No key is found repeated exactly if all keys are distinct and new. -/
lemma firstRepeated?_eq_none_iff {seen : List MethodKey} {es : List Entry} :
    Entry.firstRepeated? seen es = none
      ↔ (es.map (·.key)).Nodup ∧ ∀ e ∈ es, e.key ∉ seen := by
  induction es generalizing seen with
  | nil => simp [Entry.firstRepeated?]
  | cons e es ih =>
      rw [Entry.firstRepeated?]
      split_ifs with he
      · simp [he]
      · rw [ih, List.map_cons, List.nodup_cons]
        grind

end Resource

/-! ### Both together -/

open Resource in
/-- **What is opened**: exactly the resources that start with a front and a directory that names
no method twice. -/
theorem Archive.ofResource_eq_ok_iff {r : Resource} {a : Archive} :
    ofResource r = .ok a
      ↔ ∃ (f : Front) (rest : Bytes), r.data = f.bytes ++ rest
        ∧ entrySize * f.count ≤ rest.length
        ∧ ((directory r.data f.header).map (·.key)).Nodup
        ∧ a = ⟨r, f.header, directory r.data f.header⟩ := by
  have hread {f : Front} {rest : Bytes} (hdata : r.data = f.bytes ++ rest)
      (hroom : entrySize * f.count ≤ rest.length) :
      Entry.readMany f.header.methodCount (r.data.drop f.header.directoryStart)
        = directory r.data f.header := by
    have hlen : entrySize * f.count ≤ (r.data.drop f.bytes.length).length := by
      rwa [hdata, List.drop_left]
    simp only [Front.header, directory, readMany_eq hlen, entryAt_drop]
  have hfirst {es : List Entry} : Entry.firstRepeated? [] es = none ↔ (es.map (·.key)).Nodup := by
    rw [firstRepeated?_eq_none_iff]
    simp
  rw [ofResource]
  constructor
  · intro h
    obtain ⟨header, hheader, h⟩ := bind_eq_ok_iff.mp h
    obtain ⟨f, rest, hdata, hroom, rfl⟩ := readHeader_eq_ok_iff.mp hheader
    rw [hread hdata hroom] at h
    dsimp only at h
    split at h
    · cases h
    · rename_i hnone
      exact ⟨f, rest, hdata, hroom, hfirst.mp hnone, (Except.ok.inj h).symm⟩
  · rintro ⟨f, rest, hdata, hroom, hdistinct, rfl⟩
    rw [readHeader_eq_ok_iff.mpr ⟨f, rest, hdata, hroom, rfl⟩, ok_bind, hread hdata hroom]
    simp only [hfirst.mpr hdistinct, pure_eq_ok]

end OpcodeRecovery
