import Mathlib.Tactic
import OpcodeRecovery.Proofs.Resource.Acceptance
import OpcodeRecovery.Proofs.Resource.Extraction
import OpcodeRecovery.Proofs.Resource.Masking
import OpcodeRecovery.Resource.Contents

/-!
Writing a resource and reading it back.

* `Contents.Fits` collects what the format has room for: distinct keys, and a count, lengths
  and places below `2 ^ 32`.
* `readHeader_header_append` and `readMany_layout` read header and directory, whatever
  follows; `readBody_body` reads one body, whatever follows.
* `find?_entriesFrom` and `drop_bodies` join the two: the entry found for a key points to
  where that key's body starts.
* `Contents.archive_of_write` is the round trip, for the directory as it was read and as it is
  walked through. Nothing in it depends on what the digest of a body is, only on its being the
  same on both sides.
-/

namespace OpcodeRecovery

namespace Resource

variable {version : Version} {flags : Flags}

/-! ### What the format has room for -/

/-- The bodies of some methods, one after the other. -/
def Contents.bodies (c : Contents) (ms : List Stream) : Bytes :=
  ms.flatMap (Contents.body c.version c.flags)

/-- Where the body of the `i`-th method stands, counted from the first one. -/
def Contents.place (c : Contents) (i : ℕ) : ℕ := (c.bodies (c.methods.take i)).length

/-- Contents that the format has room for: the keys are distinct, and the number of methods,
the length of every method and the place of every body are 32-bit numbers. -/
structure Contents.Fits (c : Contents) : Prop where
  distinct : (c.methods.map (·.key)).Nodup
  count_lt : c.methods.length < 2 ^ 32
  length_lt : ∀ s ∈ c.methods, s.data.length < 2 ^ 32
  place_lt : ∀ i < c.methods.length, c.place i < 2 ^ 32

lemma Contents.word_of_lt {n : ℕ} (h : n < 2 ^ 32) : Contents.word n = n := by
  rw [Contents.word]
  omega

/-! ### The header -/

/-- The header is read back in front of anything that has room for the directory. -/
lemma readHeader_header_append (c : Contents) (rest : Bytes) (hcount : c.methods.length < 2 ^ 32)
    (hrest : entrySize * c.methods.length ≤ rest.length) :
    readHeader (c.header ++ rest) = .ok
      ⟨c.version, c.flags, c.methods.length, c.header.length,
        c.header.length + entrySize * c.methods.length⟩ := by
  let f : Front := ⟨c.version, c.flags, c.methods.length, SevenBit.encode c.methods.length,
    SevenBit.numeral_encode hcount⟩
  have hbytes : c.header = f.bytes := by
    simp only [Contents.header, Contents.word_of_lt hcount, f, Front.bytes, List.append_assoc]
  rw [hbytes]
  exact readHeader_append hrest

/-! ### The directory -/

/-- The directory entries of methods whose first body stands at `place`. -/
def entriesFrom (version : Version) (flags : Flags) : ℕ → List Stream → List Entry
  | _, [] => []
  | place, s :: rest =>
      ⟨s.key, place⟩
        :: entriesFrom version flags (place + (Contents.body version flags s).length) rest

/-- The entries name the methods in their order. -/
lemma map_key_entriesFrom (place : ℕ) (ms : List Stream) :
    (entriesFrom version flags place ms).map (·.key) = ms.map (·.key) := by
  induction ms generalizing place with
  | nil => rfl
  | cons s ms ih => rw [entriesFrom, List.map_cons, List.map_cons, ih]

/-- Every entry points to the end of the bodies in front of its own. -/
lemma place_of_mem_entriesFrom {place : ℕ} {ms : List Stream} {e : Entry}
    (he : e ∈ entriesFrom version flags place ms) :
    ∃ i < ms.length,
      e.place = place + ((ms.take i).flatMap (Contents.body version flags)).length := by
  induction ms generalizing place with
  | nil => simp [entriesFrom] at he
  | cons s ms ih =>
      rcases List.mem_cons.mp he with rfl | he
      · exact ⟨0, by simp, by simp⟩
      · obtain ⟨i, hi, hplace⟩ := ih he
        refine ⟨i + 1, by simpa using hi, ?_⟩
        rw [hplace, List.take_succ_cons, List.flatMap_cons, List.length_append]
        omega

/-- The entry of a key is the one behind those of the methods in front of it. -/
lemma find?_entriesFrom {place : ℕ} {front : List Stream} {s : Stream} (back : List Stream)
    (hs : s.key ∉ front.map (·.key)) :
    (entriesFrom version flags place (front ++ s :: back)).find? (·.key == s.key)
      = some ⟨s.key, place + (front.flatMap (Contents.body version flags)).length⟩ := by
  induction front generalizing place with
  | nil => simp [entriesFrom]
  | cons t front ih =>
      rw [List.map_cons, List.mem_cons, not_or] at hs
      rw [List.cons_append, entriesFrom, List.find?_cons_of_neg (by simpa using Ne.symm hs.1),
        ih hs.2, List.flatMap_cons, List.length_append]
      simp only [Option.some.injEq, Entry.mk.injEq, true_and]
      omega

lemma read?_entry_append {place : ℕ} (key : MethodKey) (rest : Bytes) (h : place < 2 ^ 32) :
    Entry.read? (Contents.entry key place ++ rest) = some (⟨key, place⟩, rest) := by
  have hcap : Bytes.capacity 4 = 2 ^ 32 := rfl
  have htoken : key.token.value.toNat % 2 ^ 32 = key.token.value.toNat :=
    Nat.mod_eq_of_lt key.token.value.toNat_lt
  have hseed : key.seed.toNat % 2 ^ 32 = key.seed.toNat := Nat.mod_eq_of_lt key.seed.toNat_lt
  have hplace : place % 2 ^ 32 = place := Nat.mod_eq_of_lt h
  rw [Contents.entry, Contents.word_of_lt h, List.append_assoc, List.append_assoc]
  simp only [Entry.read?, Bytes.number?_ofNatLE_append, hcap, htoken, hseed, hplace,
    Option.bind_eq_bind, Option.bind_some, UInt32.ofNat_toNat]
  rfl

/-- The directory is read back in front of anything. -/
lemma readMany_layout {place : ℕ} {ms : List Stream} (rest : Bytes)
    (h : ∀ e ∈ entriesFrom version flags place ms, e.place < 2 ^ 32) :
    Entry.readMany ms.length ((Contents.layout version flags place ms).1 ++ rest)
      = entriesFrom version flags place ms := by
  induction ms generalizing place with
  | nil => rfl
  | cons s ms ih =>
      have hhead : place < 2 ^ 32 := h ⟨s.key, place⟩ (by simp [entriesFrom])
      have htail : ∀ e ∈ entriesFrom version flags
          (place + (Contents.body version flags s).length) ms, e.place < 2 ^ 32 :=
        fun e he => h e (by simp [entriesFrom, he])
      simp only [List.length_cons, Contents.layout, Entry.readMany, List.append_assoc,
        read?_entry_append s.key _ hhead, ih htail, entriesFrom]

lemma length_layout_directory (place : ℕ) (ms : List Stream) :
    (Contents.layout version flags place ms).1.length = entrySize * ms.length := by
  induction ms generalizing place with
  | nil => rfl
  | cons s ms ih =>
      simp only [Contents.layout, Contents.entry, List.length_append, Bytes.length_ofNatLE, ih,
        List.length_cons, entrySize]
      omega

lemma layout_bodies (place : ℕ) (ms : List Stream) :
    (Contents.layout version flags place ms).2 = ms.flatMap (Contents.body version flags) := by
  induction ms generalizing place with
  | nil => rfl
  | cons s ms ih => simp only [Contents.layout, ih, List.flatMap_cons]

/-! ### Bodies -/

/-- A body is read back in front of anything. -/
lemma readBody_body {s : Stream} (rest : Bytes) (h : s.data.length < 2 ^ 32) :
    Archive.readBody version flags s.key (Contents.body version flags s ++ rest) = .ok s := by
  have hmasked := Version.length_encode version s.key.seed s.data
  let b : Archive.Body := ⟨SevenBit.encode s.data.length, version.encode s.key.seed s.data,
    hmasked.symm ▸ SevenBit.numeral_encode h⟩
  have hplain : b.plain version s.key = s.data := Version.decode_encode version s.key.seed s.data
  have hbytes : Contents.body version flags s = b.bytes version flags s.key := by
    rw [Contents.body, Contents.word_of_lt h, Archive.Body.bytes, hplain, List.append_assoc]
  rw [hbytes, Archive.readBody_append, hplain]

/-! ### The round trip -/

namespace Contents

lemma length_header_le (c : Contents) (h : c.methods.length < 2 ^ 32) : c.header.length ≤ 13 := by
  have hcount : (SevenBit.encode c.methods.length).length ≤ 5 :=
    SevenBit.length_encode_le 4 (by omega)
  simp only [header, word_of_lt h, magic, List.length_append, Bytes.length_ofNatLE,
    List.length_cons, List.length_nil]
  omega

/-- The directory of a resource. -/
def directory (c : Contents) : Bytes := (layout c.version c.flags 0 c.methods).1

lemma write_eq (c : Contents) : c.write = c.header ++ (c.directory ++ c.bodies c.methods) := by
  rw [bodies, ← layout_bodies 0 c.methods, directory, ← List.append_assoc]
  rfl

lemma length_directory (c : Contents) : c.directory.length = entrySize * c.methods.length :=
  length_layout_directory 0 c.methods

/-- Behind header, directory and the bodies in front of it stands the body of a method. -/
lemma drop_write {c : Contents} {front back : List Stream} {s : Stream}
    (h : c.methods = front ++ s :: back) :
    c.write.drop (c.header.length + entrySize * c.methods.length + (c.bodies front).length)
      = body c.version c.flags s ++ c.bodies back := by
  have hwrite : c.write = c.header ++ c.directory ++ c.bodies front
      ++ (body c.version c.flags s ++ c.bodies back) := by
    rw [write_eq, show c.bodies c.methods
      = c.bodies front ++ (body c.version c.flags s ++ c.bodies back) by simp [bodies, h]]
    simp only [List.append_assoc]
  rw [hwrite, ← length_directory, ← List.length_append, ← List.length_append, List.drop_left]

/-- Every place in the directory is a 32-bit number. -/
lemma Fits.entry_place_lt {c : Contents} (hc : c.Fits) :
    ∀ e ∈ entriesFrom c.version c.flags 0 c.methods, e.place < 2 ^ 32 := by
  intro e he
  obtain ⟨i, hi, hplace⟩ := place_of_mem_entriesFrom he
  rw [hplace, Nat.zero_add]
  exact hc.place_lt i hi

/-- What is read from a written resource. -/
def archive (c : Contents) (r : Resource) : Archive where
  resource := r
  header := ⟨c.version, c.flags, c.methods.length, c.header.length,
    c.header.length + entrySize * c.methods.length⟩
  entries := entriesFrom c.version c.flags 0 c.methods

/-- Header and directory of a written resource are accepted. -/
lemma Fits.ofResource_eq {c : Contents} (hc : c.Fits) {r : Resource} (hr : r.data = c.write) :
    Archive.ofResource r = .ok (c.archive r) := by
  have hroom : entrySize * c.methods.length ≤ (c.directory ++ c.bodies c.methods).length := by
    rw [List.length_append, length_directory]
    omega
  have hread : Entry.readMany c.methods.length (c.directory ++ c.bodies c.methods)
      = entriesFrom c.version c.flags 0 c.methods := readMany_layout _ hc.entry_place_lt
  have hnew : Entry.firstRepeated? [] (entriesFrom c.version c.flags 0 c.methods) = none := by
    rw [firstRepeated?_eq_none_iff, map_key_entriesFrom]
    exact ⟨hc.distinct, by simp⟩
  rw [Archive.ofResource, hr, write_eq, readHeader_header_append c _ hc.count_lt hroom]
  simp only [ok_bind, List.drop_left, hread, hnew, pure_eq_ok, archive]

/-- Every method of a written resource has its plain bytes back. -/
lemma Fits.extract_eq {c : Contents} (hc : c.Fits) {r : Resource} (hr : r.data = c.write)
    {s : Stream} (hs : s ∈ c.methods) : (c.archive r).extract s.key = .ok s := by
  obtain ⟨front, back, hsplit⟩ := List.append_of_mem hs
  have hfront : s.key ∉ front.map (·.key) := by
    have hdistinct := hc.distinct
    rw [hsplit, List.map_append, List.map_cons] at hdistinct
    exact fun hmem => (List.disjoint_of_nodup_append hdistinct) hmem List.mem_cons_self
  have hfind : (c.archive r).entries.find? (·.key == s.key)
      = some ⟨s.key, (c.bodies front).length⟩ := by
    rw [archive, hsplit, find?_entriesFrom back hfront, Nat.zero_add]
    rfl
  -- the body lies where the entry says, far below the end of the addresses
  have hdrop := drop_write hsplit
  have hplace : (c.bodies front).length < 2 ^ 32 :=
    hc.entry_place_lt ⟨s.key, (c.bodies front).length⟩ (List.mem_of_find?_eq_some hfind)
  have hheader := length_header_le c hc.count_lt
  have hcount := hc.count_lt
  have hlow : ¬ c.header.length + entrySize * c.methods.length + (c.bodies front).length
      ≥ Archive.addressLimit := by
    simp only [entrySize, Archive.addressLimit]
    omega
  have hinside : ¬ c.header.length + entrySize * c.methods.length + (c.bodies front).length
      > c.write.length := by
    rw [write_eq, hsplit]
    simp only [List.length_append, length_directory, bodies, List.flatMap_append]
    rw [hsplit]
    simp only [List.length_append]
    omega
  rw [Archive.extract, hfind]
  simp only [Archive.extractEntry, archive, hr, hlow, hinside, if_false, hdrop]
  exact readBody_body _ (hc.length_lt s hs)

/-- **Reading a resource after writing it**: the header and the directory are accepted with
the same version and flags, the keys come in the order of the methods, a walk through the
directory yields them one after the other and then ends, and every method has its plain bytes
back. -/
theorem archive_of_write (c : Contents) (hc : c.Fits) :
    ∃ r a, Resource.ofBytes c.write = .ok r ∧ Archive.ofResource r = .ok a
      ∧ a.header.version = c.version ∧ a.header.flags = c.flags
      ∧ a.keys = c.methods.map (·.key)
      ∧ (∀ n, (a.walk.steps n).1.map (·.2.key) = (c.methods.map (·.key)).take n)
      ∧ ∀ s ∈ c.methods, a.extract s.key = .ok s := by
  have hne : c.write ≠ [] := by
    rw [write_eq, header]
    simp [magic]
  have hopen : Archive.ofResource ⟨c.write, hne⟩ = .ok (c.archive ⟨c.write, hne⟩) :=
    hc.ofResource_eq rfl
  have hkeys : (c.archive ⟨c.write, hne⟩).keys = c.methods.map (·.key) :=
    map_key_entriesFrom 0 c.methods
  refine ⟨⟨c.write, hne⟩, c.archive ⟨c.write, hne⟩, ?_, hopen, rfl, rfl, hkeys, fun n => ?_,
    fun s hs => hc.extract_eq rfl hs⟩
  · rw [ofBytes, dif_neg hne]
  · rw [Archive.keys_steps_walk hopen, hkeys]

/-- Three methods: a short one, an empty one, and one whose length takes two bytes. -/
def sample : Contents :=
  ⟨.v2, ⟨true⟩,
    [⟨⟨⟨0x06000010⟩, 1⟩, [0x00, 0x11, 0x22, 0x33]⟩, ⟨⟨⟨0x06000002⟩, 0xDEADBEEF⟩, []⟩,
      ⟨⟨⟨0x06000007⟩, 0xE1234567⟩, List.replicate 200 0x2A⟩]⟩

theorem archive_of_write_sample :
    sample.Fits ∧ ∃ r a, Resource.ofBytes sample.write = .ok r ∧ Archive.ofResource r = .ok a
      ∧ a.header.version = .v2 ∧ a.header.flags = ⟨true⟩
      ∧ a.keys = sample.methods.map (·.key)
      ∧ (a.walk.steps 2).1.map (·.2.key) = [⟨⟨0x06000010⟩, 1⟩, ⟨⟨0x06000002⟩, 0xDEADBEEF⟩]
      ∧ (a.walk.steps 4).1.map (·.2.key)
        = [⟨⟨0x06000010⟩, 1⟩, ⟨⟨0x06000002⟩, 0xDEADBEEF⟩, ⟨⟨0x06000007⟩, 0xE1234567⟩]
      ∧ ∀ s ∈ sample.methods, a.extract s.key = .ok s := by
  have hfits : sample.Fits := ⟨by decide, by decide, by decide +kernel, by decide +kernel⟩
  obtain ⟨r, a, hbytes, hopen, hversion, hflags, hkeys, hwalk, hextract⟩ :=
    archive_of_write sample hfits
  exact ⟨hfits, r, a, hbytes, hopen, hversion, hflags, hkeys, hwalk 2, hwalk 4, hextract⟩

end Contents

end Resource

end OpcodeRecovery
