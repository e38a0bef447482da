import Mathlib.Tactic
import OpcodeRecovery.Proofs.Ledger
import OpcodeRecovery.Proofs.Resource.Front

/-!
Which byte strings are accepted as resources, and how the others are refused.

* `Resource.WellFormed` is the format: a front, and room behind it for a directory in which no two
  entries have the same token and seed. The bodies play no part in it.
* `Resource.Announces` says that magic number and version are there. Where they are, and the version
  is not known, this is the error; every other one is a fault in the bytes
  (`Archive.ofResource_error`).
* `Resource.Walk.steps_eq` follows a walk through a directory.
* `Archive.opens_exactly` collects what opening a resource comes to.
-/

namespace OpcodeRecovery

namespace Resource

/-- The format of a resource: a front, then the entries of a directory, of which no two have the
same key. -/
def WellFormed (data : Bytes) : Prop :=
  ∃ (f : Front) (rest : Bytes), data = f.bytes ++ rest ∧ entrySize * f.count ≤ rest.length
    ∧ ∀ i < f.count, ∀ j < f.count,
      (entryAt rest (entrySize * i)).key = (entryAt rest (entrySize * j)).key → i = j

/-- The keys of a directory are distinct exactly if no two places of it have the same. -/
lemma nodup_keys_directory_iff {f : Front} {rest : Bytes} :
    ((directory (f.bytes ++ rest) f.header).map (·.key)).Nodup
      ↔ ∀ i < f.count, ∀ j < f.count,
        (entryAt rest (entrySize * i)).key = (entryAt rest (entrySize * j)).key → i = j := by
  have hentry (i : ℕ) : entryAt (f.bytes ++ rest) (f.bytes.length + entrySize * i)
      = entryAt rest (entrySize * i) := by
    rw [← entryAt_drop, List.drop_left]
  rw [directory, List.map_map, List.nodup_map_iff_inj_on List.nodup_range]
  simp only [Front.header, Function.comp_apply, hentry, List.mem_range]

/-! ### Versions that are not known -/

/-- The bytes start with the magic number and the number of a version. -/
def Announces (data : Bytes) (n : UInt16) : Prop :=
  ∃ rest, data = magic ++ (Bytes.ofNatLE 2 n.toNat ++ rest)

lemma number?_version (n : UInt16) (rest : Bytes) :
    Bytes.number? 2 (Bytes.ofNatLE 2 n.toNat ++ rest) = some (n.toNat, rest) :=
  Bytes.number?_eq_some_iff.mpr ⟨n.toNat_lt, rfl⟩

lemma Announces.eq {data : Bytes} {m n : UInt16} (hm : Announces data m) (hn : Announces data n) :
    m = n := by
  obtain ⟨rest, rfl⟩ := hm
  obtain ⟨rest', heq⟩ := hn
  have hread := number?_version m rest
  rw [List.append_cancel_left heq, number?_version] at hread
  exact UInt16.toNat_inj.mp (Prod.mk.inj (Option.some.inj hread)).1.symm

/-- A front announces its version. -/
lemma Front.announces (f : Front) (rest : Bytes) : Announces (f.bytes ++ rest) f.version.number :=
  ⟨Bytes.ofNatLE 2 f.flags.bits ++ f.numeral ++ rest, by simp only [bytes, List.append_assoc]⟩

/-- What is read behind the version. -/
def readRest (size : ℕ) (bs : Bytes) (version : Version) : Except Error Header := do
  let (bits, bs) ← require .truncatedHeader (Bytes.number? 2 bs)
  let flags ← require (.unknownResourceFlags bits) (Flags.ofBits? bits)
  let (count, bs) ← require .badMethodCount (SevenBit.decode? bs)
  if entrySize * count > bs.length then reject (.longDirectory count size)
  let directoryStart := size - bs.length
  return ⟨version, flags, count, directoryStart, directoryStart + entrySize * count⟩

lemma readRest_faulty (size : ℕ) (bs : Bytes) (version : Version) :
    Faulty (readRest size bs version) := by
  refine (Faulty.require _ _).bind fun ⟨bits, bs⟩ => ?_
  refine (Faulty.require _ _).bind fun flags => ?_
  refine (Faulty.require _ _).bind fun ⟨count, bs⟩ => ?_
  dsimp only
  split_ifs
  · exact .reject _
  · exact .ok _

/-- Where a version is announced, it decides first. -/
lemma readHeader_of_announces (n : UInt16) (rest : Bytes) :
    readHeader (magic ++ (Bytes.ofNatLE 2 n.toNat ++ rest))
      = Version.ofNumber n >>=
        readRest (magic ++ (Bytes.ofNatLE 2 n.toNat ++ rest)).length rest := by
  rw [readHeader, Bytes.split?_append]
  simp only [require_some, ok_bind, ne_eq, not_true_eq_false, if_false, number?_version,
    UInt16.ofNat_toNat]
  rfl

/-- Where no version is announced, the bytes are at fault. -/
lemma readHeader_of_not_announces {data : Bytes} (h : ∀ n, ¬ Announces data n) :
    Faulty (readHeader data) := by
  rw [readHeader]
  cases hmagic : Bytes.split? magic.length data with
  | none => exact .reject _
  | some parts =>
      obtain ⟨found, bs⟩ := parts
      obtain ⟨rfl, -⟩ := Bytes.split?_eq_some_iff.mp hmagic
      dsimp only [require_some, ok_bind]
      split_ifs with hne
      · exact .reject _
      · cases hnumber : Bytes.number? 2 bs with
        | none => exact .reject _
        | some parts =>
            -- magic number and version are both there
            obtain ⟨number, rest⟩ := parts
            obtain ⟨hlt, rfl⟩ := Bytes.number?_eq_some_iff.mp hnumber
            refine absurd ⟨rest, ?_⟩ (h (UInt16.ofNat number))
            rw [not_not.mp hne, UInt16.toNat_ofNat_of_lt' hlt]

lemma Version.ofNumber_eq_error {n : UInt16} {e : Error} (h : Version.ofNumber n = .error e) :
    (∀ v : Version, v.number ≠ n) ∧ e = .unsupportedVersion n := by
  refine ⟨fun v hv => ?_, ?_⟩
  · rw [Version.ofNumber_eq_ok_iff.mpr hv.symm] at h
    cases h
  · rw [Version.ofNumber] at h
    split at h
    · cases h
    · exact (Except.error.inj h).symm

/-- A header that is not read announces a version that is not known, or is at fault. -/
lemma readHeader_error {data : Bytes} {e : Error} (h : readHeader data = .error e) :
    (∃ n, Announces data n ∧ (∀ v : Version, v.number ≠ n) ∧ e = .unsupportedVersion n)
      ∨ (∀ n, Announces data n → ∃ v : Version, v.number = n) ∧ ∃ fault, e = .format fault := by
  by_cases hann : ∃ n, Announces data n
  · obtain ⟨n, hn⟩ := hann
    obtain ⟨rest, rfl⟩ := hn
    rw [readHeader_of_announces] at h
    rcases bind_eq_error h with herror | ⟨version, hversion, herror⟩
    · exact .inl ⟨n, ⟨rest, rfl⟩, Version.ofNumber_eq_error herror⟩
    · refine .inr ⟨fun m hm => ⟨version, ?_⟩, readRest_faulty _ _ _ _ herror⟩
      rw [← Version.ofNumber_eq_ok_iff.mp hversion]
      exact Announces.eq ⟨rest, rfl⟩ hm
  · have hnone : ∀ n, ¬ Announces data n := not_exists.mp hann
    exact .inr ⟨fun n hn => absurd hn (hnone n), readHeader_of_not_announces hnone e h⟩

/-! ### Walks -/

namespace Walk

variable {d : Bytes} {c : ℕ}

lemma remaining_eq (hd : d.length = entrySize * c) (i : ℕ) :
    remaining ⟨d, entrySize * i⟩ = c - i := by
  rw [remaining, hd, ← Nat.mul_sub, Nat.mul_div_cancel_left _ (by decide)]

/-- A walk meets an entry until it has met them all. -/
lemma next?_eq (hd : d.length = entrySize * c) (i : ℕ) :
    next? ⟨d, entrySize * i⟩
      = if i < c then some (entryAt d (entrySize * i), ⟨d, entrySize * (i + 1)⟩) else none := by
  have hroom : entrySize ≤ (d.drop (entrySize * i)).length ↔ i < c := by
    rw [List.length_drop, hd, entrySize]
    omega
  rw [next?, read?_eq]
  simp only [hroom, entryAt_drop, Nat.add_zero]
  split_ifs <;> rfl

/-- What a walk meets in any number of steps, and where it is then. -/
lemma steps_eq (hd : d.length = entrySize * c) (n i : ℕ) :
    steps n ⟨d, entrySize * i⟩
      = ((List.range (min n (c - i))).map fun j => (c - (i + j), entryAt d (entrySize * (i + j))),
        ⟨d, entrySize * (i + min n (c - i))⟩) := by
  induction n generalizing i with
  | zero => simp [steps]
  | succ n ih =>
      rw [steps, next?_eq hd]
      by_cases hi : i < c
      · have hmin : min (n + 1) (c - i) = min n (c - (i + 1)) + 1 := by omega
        rw [if_pos hi]
        simp only [ih, remaining_eq hd, hmin, List.range_succ_eq_map, List.map_cons, List.map_map,
          Function.comp_def, Nat.add_zero, Nat.add_assoc, Nat.add_comm 1, Nat.succ_eq_add_one]
      · have hmin : min (n + 1) (c - i) = 0 := by omega
        rw [if_neg hi, hmin]
        simp

end Walk

end Resource

namespace Archive

open Resource

variable {r : Resource} {a : Archive}

lemma ofResource_error {e : Error} (h : ofResource r = .error e) :
    (∃ n, Announces r.data n ∧ (∀ v : Version, v.number ≠ n) ∧ e = .unsupportedVersion n)
      ∨ (∀ n, Announces r.data n → ∃ v : Version, v.number = n) ∧ ∃ fault, e = .format fault := by
  rcases bind_eq_error h with hheader | ⟨header, hheader, h⟩
  · exact readHeader_error hheader
  · obtain ⟨f, rest, hdata, -, rfl⟩ := readHeader_eq_ok_iff.mp hheader
    dsimp only at h
    split at h
    · refine .inr ⟨fun n hn => ⟨f.version, ?_⟩, Faulty.reject _ e h⟩
      rw [hdata] at hn
      exact (f.announces rest).eq hn
    · cases h

/-- A resource is opened exactly if it is well formed. -/
lemma exists_ofResource_iff : (∃ a, ofResource r = .ok a) ↔ WellFormed r.data := by
  constructor
  · rintro ⟨a, ha⟩
    obtain ⟨f, rest, hdata, hroom, hdistinct, -⟩ := ofResource_eq_ok_iff.mp ha
    rw [hdata, nodup_keys_directory_iff] at hdistinct
    exact ⟨f, rest, hdata, hroom, hdistinct⟩
  · rintro ⟨f, rest, hdata, hroom, hdistinct⟩
    rw [← nodup_keys_directory_iff, ← hdata] at hdistinct
    exact ⟨_, ofResource_eq_ok_iff.mpr ⟨f, rest, hdata, hroom, hdistinct, rfl⟩⟩

/-- The bytes that a walk goes through: as many as the entries take, and the entries are those of
the resource. -/
lemma length_directory_walk {f : Front} {rest : Bytes} (hdata : r.data = f.bytes ++ rest)
    (hroom : entrySize * f.count ≤ rest.length) :
    ((r.data.take f.header.bodyStart).drop f.header.directoryStart).length
      = entrySize * f.count := by
  rw [List.length_drop, List.length_take, hdata, List.length_append]
  simp only [Front.header]
  omega

lemma steps_walk (h : ofResource r = .ok a) (n : ℕ) :
    (a.walk.steps n).1 = (List.range (min n a.header.methodCount)).map (fun i =>
        (a.header.methodCount - i, entryAt r.data (a.header.directoryStart + entrySize * i)))
      ∧ (a.walk.steps n).2.remaining = a.header.methodCount - n
      ∧ ((a.walk.steps n).2.next? = none ↔ a.header.methodCount ≤ n) := by
  obtain ⟨f, rest, hdata, hroom, -, rfl⟩ := ofResource_eq_ok_iff.mp h
  have hd := length_directory_walk hdata hroom
  have hsteps := Walk.steps_eq hd n 0
  rw [Nat.mul_zero] at hsteps
  rw [walk, hsteps]
  dsimp only
  refine ⟨?_, ?_, ?_⟩
  · refine List.map_congr_left fun i hi => ?_
    have hi' := List.mem_range.mp hi
    have hend : f.header.directoryStart + entrySize * i + entrySize ≤ f.header.bodyStart := by
      simp only [Front.header, entrySize]
      omega
    rw [Nat.zero_add, entryAt_drop, entryAt_take hend]
    rfl
  · rw [Walk.remaining_eq hd]
    simp only [Front.header]
    omega
  · rw [Walk.next?_eq hd]
    simp only [Front.header, ite_eq_right_iff, reduceCtorEq, imp_false]
    omega

/-- The entries that a walk meets are those that were read when the resource was opened, in their
order and none twice. -/
lemma entries_steps_walk (h : ofResource r = .ok a) (n : ℕ) :
    (a.walk.steps n).1.map (·.2) = a.entries.take n := by
  have hentries : a.entries = (List.range a.header.methodCount).map fun i =>
      entryAt r.data (a.header.directoryStart + entrySize * i) := by
    obtain ⟨f, rest, -, -, -, rfl⟩ := ofResource_eq_ok_iff.mp h
    rfl
  rw [(steps_walk h n).1, List.map_map, hentries, ← List.map_take, List.take_range]
  rfl

/-- The keys that a walk meets, one for each step until there are no more. -/
lemma keys_steps_walk (h : ofResource r = .ok a) (n : ℕ) :
    (a.walk.steps n).1.map (·.2.key) = a.keys.take n := by
  rw [keys, ← List.map_take, ← entries_steps_walk h n, List.map_map]
  rfl

/-- **What opening a resource comes to.** It succeeds exactly on the well-formed resources. Then
the header is that of the front, the entries are those at every twelfth position behind it, and a
walk, after any number of steps, has met as many of them, each when the number of those ahead was
what it had to be; looking a method up is looking at its entry. Otherwise the error is that the
version is not supported, exactly if one is announced that is not known, and a fault in the bytes
if not. -/
theorem opens_exactly (r : Resource) :
    ((∃ a, ofResource r = .ok a) ↔ WellFormed r.data)
    ∧ (∀ a, ofResource r = .ok a →
        (∃ (f : Front) (rest : Bytes), r.data = f.bytes ++ rest ∧ a.header = f.header)
        ∧ a.header.bodyStart = a.header.directoryStart + entrySize * a.header.methodCount
        ∧ a.entries = (List.range a.header.methodCount).map (fun i =>
            entryAt r.data (a.header.directoryStart + entrySize * i))
        ∧ (∀ n, (a.walk.steps n).1 = (List.range (min n a.header.methodCount)).map (fun i =>
              (a.header.methodCount - i, entryAt r.data (a.header.directoryStart + entrySize * i)))
            ∧ (a.walk.steps n).2.remaining = a.header.methodCount - n
            ∧ ((a.walk.steps n).2.next? = none ↔ a.header.methodCount ≤ n))
        ∧ ∀ e ∈ a.entries, a.extract e.key = a.extractEntry e)
    ∧ ∀ e, ofResource r = .error e →
        (∀ n, e = .unsupportedVersion n ↔ Announces r.data n ∧ ∀ v : Version, v.number ≠ n)
        ∧ ((∀ n, e ≠ .unsupportedVersion n) → ∃ fault, e = .format fault) := by
  refine ⟨exists_ofResource_iff, fun a ha => ?_, fun e he => ?_⟩
  · obtain ⟨f, rest, hdata, -, hdistinct, rfl⟩ := ofResource_eq_ok_iff.mp ha
    refine ⟨⟨f, rest, hdata, rfl⟩, rfl, rfl, steps_walk ha, fun e he => ?_⟩
    have hinj : ∀ e ∈ directory r.data f.header, ∀ e' ∈ directory r.data f.header,
        e.key = e'.key → e = e' :=
      fun e he e' he' => List.inj_on_of_nodup_map hdistinct he he'
    rw [extract, (find?_key_eq_some_iff hinj).mpr ⟨he, rfl⟩]
  · rcases ofResource_error he with ⟨n, hann, hunknown, rfl⟩ | ⟨hknown, fault, rfl⟩
    · refine ⟨fun m => ?_, fun hne => absurd rfl (hne n)⟩
      constructor
      · intro heq
        obtain rfl := Error.unsupportedVersion.inj heq
        exact ⟨hann, hunknown⟩
      · rintro ⟨hm, -⟩
        rw [hann.eq hm]
    · refine ⟨fun n => ?_, fun _ => ⟨fault, rfl⟩⟩
      constructor
      · intro heq
        cases heq
      · rintro ⟨hann, hunknown⟩
        obtain ⟨v, hv⟩ := hknown n hann
        exact absurd hv (hunknown v)

/-- A resource that ends with its directory: one method, counted in two bytes where one would
do, and no body. -/
def sampleBare : Resource :=
  ⟨[0x45, 0x5A, 0x56, 0x4D, 1, 0, 1, 0, 0x81, 0x00, 1, 0, 0, 6, 7, 0, 0, 0, 0, 0, 0, 0], by decide⟩

/-- What is read of it. -/
def sampleOpened : Archive :=
  ⟨sampleBare, ⟨.v1, ⟨true⟩, 1, 10, 22⟩, [⟨⟨⟨0x06000001⟩, 7⟩, 0⟩]⟩

/-- A resource of a version that is not known. -/
def sampleForeign : Resource := ⟨[0x45, 0x5A, 0x56, 0x4D, 9, 0, 0xFF], by decide⟩

theorem opens_exactly_sample :
    ofResource sampleBare = .ok sampleOpened ∧ WellFormed sampleBare.data
      ∧ (sampleOpened.walk.steps 3).1 = [(1, ⟨⟨⟨0x06000001⟩, 7⟩, 0⟩)]
      ∧ ofResource sampleForeign = .error (.unsupportedVersion 9)
      ∧ Announces sampleForeign.data 9 := by
  have hopen : ofResource sampleBare = .ok sampleOpened := by cbv
  have hforeign : ofResource sampleForeign = .error (.unsupportedVersion 9) := by cbv
  obtain ⟨hformat, hsuccess, -⟩ := opens_exactly sampleBare
  obtain ⟨-, -, -, hwalk, -⟩ := hsuccess sampleOpened hopen
  obtain ⟨-, -, hfailure⟩ := opens_exactly sampleForeign
  refine ⟨hopen, hformat.mp ⟨_, hopen⟩, ?_, hforeign, (((hfailure _ hforeign).1 9).mp rfl).1⟩
  rw [(hwalk 3).1]
  decide

end Archive

end OpcodeRecovery
