import Mathlib.Tactic
import OpcodeRecovery.Proofs.Resource.Front

/-!
What reading a method out of an archive comes to: a stream under the key that was asked for
(`Archive.key_of_extract`), or a fault in the bytes (`Archive.extract_faulty`). Neither is a
breach of a cache.

`Archive.Body` is a body as the format has it. `Archive.readBody_eq_ok_iff` says that exactly these
are read, whatever follows them, and `Archive.extractEntry_eq_ok_iff` where they have to stand.
-/

namespace OpcodeRecovery

namespace Archive

open Resource

variable {key : MethodKey} {bs : Bytes} {stream : Stream}

/-! ### Faults -/

lemma readBody_faulty (version : Version) (flags : Flags) (key : MethodKey) (bs : Bytes) :
    Faulty (readBody version flags key bs) := by
  refine (Faulty.require _ _).bind fun ⟨length, bs⟩ => ?_
  dsimp only
  split_ifs
  · refine (Faulty.require _ _).bind fun ⟨expected, bs⟩ => ?_
    refine (Faulty.require _ _).bind fun ⟨masked, _⟩ => ?_
    dsimp only
    split_ifs
    · exact .reject _
    · exact .ok _
  · exact (Faulty.require _ _).bind fun _ => .ok _

lemma extractEntry_faulty (a : Archive) (entry : Entry) : Faulty (a.extractEntry entry) := by
  rw [extractEntry]
  split
  · exact .reject _
  · dsimp only
    split
    · exact .reject _
    · exact readBody_faulty _ _ _ _

/-- A method is malformed or missing, if it is not read. -/
lemma extract_faulty (a : Archive) (key : MethodKey) : Faulty (a.extract key) := by
  rw [extract]
  cases a.entries.find? (·.key == key) with
  | some entry => exact extractEntry_faulty a entry
  | none => exact .reject _

/-! ### Bodies -/

/-- A body as it is stored: its length in one of its numerals, and its masked bytes. -/
structure Body where
  numeral : Bytes
  masked : Bytes
  spells : SevenBit.Numeral numeral masked.length

/-- The plain bytes of a body. -/
def Body.plain (b : Body) (version : Version) (key : MethodKey) : Bytes :=
  version.decode key.seed b.masked

/-- The bytes of a body, with the checksum of its plain bytes if the flags ask for it. -/
def Body.bytes (b : Body) (version : Version) (flags : Flags) (key : MethodKey) : Bytes :=
  b.numeral ++ ((if flags.checksums then Bytes.ofNatLE 4 (checksum (b.plain version key))
    else []) ++ b.masked)

lemma Body.length_bytes (b : Body) (version : Version) (flags : Flags) (key : MethodKey) :
    (b.bytes version flags key).length
      = b.numeral.length + (if flags.checksums then 4 else 0) + b.masked.length := by
  rw [Body.bytes, List.length_append, List.length_append, ← Nat.add_assoc]
  split_ifs
  · rw [Bytes.length_ofNatLE]
  · rfl

lemma Body.length_bytes_pos (b : Body) (version : Version) (flags : Flags) (key : MethodKey) :
    0 < (b.bytes version flags key).length := by
  have hpos := b.spells.length_pos
  rw [Body.length_bytes]
  omega

lemma checksum_lt (plain : Bytes) : checksum plain < Bytes.capacity 4 :=
  Bytes.toNatLE_take_lt 4 (Sha1.digest plain)

variable {version : Version} {flags : Flags}

/-- A body is read whatever follows it. -/
lemma readBody_append (b : Body) (rest : Bytes) :
    readBody version flags key (b.bytes version flags key ++ rest)
      = .ok ⟨key, b.plain version key⟩ := by
  have hlength (bs : Bytes) : SevenBit.decode? (b.numeral ++ bs) = some (b.masked.length, bs) :=
    SevenBit.decode?_eq_some_iff.mpr ⟨b.numeral, rfl, b.spells⟩
  have hsum (plain bs : Bytes) :
      Bytes.number? 4 (Bytes.ofNatLE 4 (checksum plain) ++ bs) = some (checksum plain, bs) :=
    Bytes.number?_eq_some_iff.mpr ⟨checksum_lt plain, rfl⟩
  obtain ⟨checksums⟩ := flags
  cases checksums with
  | false =>
      simp only [readBody, Body.bytes, Body.plain, Bool.false_eq_true, if_false, List.nil_append,
        List.append_assoc, hlength, require_some, ok_bind, Bytes.split?_append, pure_eq_ok]
  | true =>
      simp only [readBody, Body.bytes, Body.plain, if_true, List.append_assoc, hlength,
        require_some, ok_bind, hsum, Bytes.split?_append, ne_eq, not_true_eq_false, if_false,
        pure_eq_ok]

/-- What is read as a body: exactly the bodies, whatever follows them. -/
lemma readBody_eq_ok_iff :
    readBody version flags key bs = .ok stream
      ↔ ∃ (b : Body) (rest : Bytes), bs = b.bytes version flags key ++ rest
        ∧ stream = ⟨key, b.plain version key⟩ := by
  constructor
  · intro h
    obtain ⟨⟨length, bs₁⟩, hlength, h⟩ := bind_eq_ok_iff.mp h
    obtain ⟨numeral, hbs, hspells⟩ := SevenBit.decode?_eq_some_iff.mp (require_eq_ok_iff.mp hlength)
    dsimp only at h
    split_ifs at h with hchecksums
    · obtain ⟨⟨expected, bs₂⟩, hexpected, h⟩ := bind_eq_ok_iff.mp h
      obtain ⟨⟨masked, rest⟩, hmasked, h⟩ := bind_eq_ok_iff.mp h
      dsimp only at h
      split_ifs at h with hsum
      · cases h
      · obtain rfl := Except.ok.inj h
        obtain rfl := not_not.mp hsum
        obtain ⟨-, rfl⟩ := Bytes.number?_eq_some_iff.mp (require_eq_ok_iff.mp hexpected)
        obtain ⟨rfl, rfl⟩ := Bytes.split?_eq_some_iff.mp (require_eq_ok_iff.mp hmasked)
        refine ⟨⟨numeral, masked, hspells⟩, rest, ?_, rfl⟩
        simp only [hbs, Body.bytes, Body.plain, hchecksums, if_true, List.append_assoc]
    · obtain ⟨⟨masked, rest⟩, hmasked, h⟩ := bind_eq_ok_iff.mp h
      obtain rfl := Except.ok.inj h
      obtain ⟨rfl, rfl⟩ := Bytes.split?_eq_some_iff.mp (require_eq_ok_iff.mp hmasked)
      refine ⟨⟨numeral, masked, hspells⟩, rest, ?_, rfl⟩
      rw [hbs, Body.bytes, if_neg hchecksums]
      simp only [List.nil_append, List.append_assoc]
  · rintro ⟨b, rest, rfl, rfl⟩
    exact readBody_append b rest

/-- A body is read where an entry points to one at an address that exists. -/
lemma extractEntry_eq_ok_iff {a : Archive} {entry : Entry} :
    a.extractEntry entry = .ok stream
      ↔ a.header.bodyStart + entry.place < addressLimit
        ∧ ∃ (b : Body) (rest : Bytes),
          a.resource.data.drop (a.header.bodyStart + entry.place)
            = b.bytes a.header.version a.header.flags entry.key ++ rest
          ∧ stream = ⟨entry.key, b.plain a.header.version entry.key⟩ := by
  rw [extractEntry, ← readBody_eq_ok_iff]
  constructor
  · intro h
    split at h
    · cases h
    · rename_i haddress
      dsimp only at h
      split at h
      · cases h
      · exact ⟨not_le.mp haddress, h⟩
  · rintro ⟨haddress, h⟩
    -- a body has bytes, so it does not start behind the last one
    have hinside : a.header.bodyStart + entry.place < a.resource.data.length := by
      obtain ⟨b, rest, hbytes, -⟩ := readBody_eq_ok_iff.mp h
      have hlength := congrArg List.length hbytes
      have hpos := b.length_bytes_pos a.header.version a.header.flags entry.key
      rw [List.length_drop, List.length_append] at hlength
      omega
    rw [if_neg (not_le.mpr haddress), if_neg (by omega)]
    exact h

/-- A method is read if its key has an entry and the entry is read. -/
lemma extract_eq_ok_iff {a : Archive} :
    a.extract key = .ok stream
      ↔ ∃ entry, a.entries.find? (·.key == key) = some entry
        ∧ a.extractEntry entry = .ok stream := by
  rw [extract]
  cases a.entries.find? (·.key == key) with
  | some entry => simp
  | none => simp [reject_ne_ok]

lemma key_of_find? {a : Archive} {entry : Entry}
    (h : a.entries.find? (·.key == key) = some entry) : entry.key = key := by
  simpa using List.find?_some h

/-- A stream that is read has the key that was asked for. -/
lemma key_of_extract {a : Archive} (h : a.extract key = .ok stream) : stream.key = key := by
  obtain ⟨entry, hentry, h⟩ := extract_eq_ok_iff.mp h
  obtain ⟨-, b, rest, -, rfl⟩ := extractEntry_eq_ok_iff.mp h
  exact key_of_find? hentry

end Archive

end OpcodeRecovery
