import Mathlib.Tactic
import OpcodeRecovery.Proofs.Resource.Extraction

/-!
A method is read from the bytes in front of the bodies and from its own bytes, and from nothing
else.

* `Bytes.AgreeOn` says that two byte strings have the same bytes in a span.
* `Archive.span?` is the span that a body takes up: length, checksum and masked bytes.
* `Archive.opened_of_agreeOn` opens another resource that agrees in front of the bodies, and
  `Archive.extractEntry_of_agreeOn` reads a body that agrees in its span.
* `Archive.extract_local` puts the two together: whatever else is cut off, added or overwritten,
  the method is read as before. A damaged body fails alone.
-/

namespace OpcodeRecovery

/-! ### Agreement -/

namespace Bytes

/-- The byte strings have the same bytes from `lo` up to `hi`; where one ends in between, so does
the other. -/
def AgreeOn (lo hi : ℕ) (bs bs' : Bytes) : Prop := ∀ i, lo ≤ i → i < hi → bs'[i]? = bs[i]?

instance (lo hi : ℕ) (bs bs' : Bytes) : Decidable (AgreeOn lo hi bs bs') :=
  inferInstanceAs (Decidable (∀ i, lo ≤ i → i < hi → bs'[i]? = bs[i]?))

variable {lo hi : ℕ} {bs bs' mid rest : Bytes}

lemma AgreeOn.slice (h : AgreeOn lo hi bs bs') :
    (bs'.drop lo).take (hi - lo) = (bs.drop lo).take (hi - lo) := by
  refine List.ext_getElem? fun i => ?_
  simp only [List.getElem?_take, List.getElem?_drop]
  split_ifs with hlt
  · exact h (lo + i) (by omega) (by omega)
  · rfl

/-- What stands in the span stands there in both. -/
lemma AgreeOn.exists_append (hbs : bs.drop lo = mid ++ rest)
    (h : AgreeOn lo (lo + mid.length) bs bs') : ∃ rest', bs'.drop lo = mid ++ rest' := by
  have hslice := h.slice
  rw [Nat.add_sub_cancel_left, hbs, List.take_left] at hslice
  have hsplit := List.take_append_drop mid.length (bs'.drop lo)
  rw [hslice] at hsplit
  exact ⟨_, hsplit.symm⟩

end Bytes

namespace Archive

open Resource

variable {r r' : Resource} {a : Archive} {key : MethodKey} {entry : Entry} {s : Stream}

/-! ### The span of a body -/

/-- Where the body of a method starts and where it ends. -/
def span? (a : Archive) (key : MethodKey) : Option (ℕ × ℕ) := do
  let entry ← a.entries.find? (·.key == key)
  let start := a.header.bodyStart + entry.place
  let bs := a.resource.data.drop start
  let (length, rest) ← SevenBit.decode? bs
  let sum := if a.header.flags.checksums then 4 else 0
  return (start, start + (bs.length - rest.length) + sum + length)

/-- A body that is read takes up its span. -/
lemma span?_eq {b : Body} {rest : Bytes} (hentry : a.entries.find? (·.key == key) = some entry)
    (hbody : a.resource.data.drop (a.header.bodyStart + entry.place)
      = b.bytes a.header.version a.header.flags entry.key ++ rest) :
    a.span? key = some (a.header.bodyStart + entry.place, a.header.bodyStart + entry.place
      + (b.bytes a.header.version a.header.flags entry.key).length) := by
  have hlength (tail : Bytes) :
      SevenBit.decode? (b.numeral ++ tail) = some (b.masked.length, tail) :=
    SevenBit.decode?_eq_some_iff.mpr ⟨b.numeral, rfl, b.spells⟩
  have hconsumed (tail : Bytes) : (b.numeral ++ tail).length - tail.length = b.numeral.length := by
    rw [List.length_append, Nat.add_sub_cancel]
  rw [Body.length_bytes]
  rw [Body.bytes, List.append_assoc] at hbody
  simp only [span?, hentry, Option.bind_eq_bind, Option.bind_some, hbody, hlength, hconsumed,
    Option.pure_def, Nat.add_assoc]

/-! ### Two resources -/

/-- A resource that agrees with an open one in front of the bodies opens as that does. -/
lemma opened_of_agreeOn (hopen : ofResource r = .ok a)
    (hfront : Bytes.AgreeOn 0 a.header.bodyStart r.data r'.data) :
    ofResource r' = .ok ⟨r', a.header, a.entries⟩ := by
  obtain ⟨f, rest, hdata, hroom, hdistinct, rfl⟩ := ofResource_eq_ok_iff.mp hopen
  have htake : r'.data.take f.header.bodyStart = r.data.take f.header.bodyStart := hfront.slice
  have hdirectory : directory r'.data f.header = directory r.data f.header := by
    rw [← directory_take rfl, htake, directory_take rfl]
  have hfrontBytes : r.data.take f.header.bodyStart
      = f.bytes ++ rest.take (entrySize * f.count) := by
    rw [hdata, Front.header, List.take_length_add_append]
  rw [hfrontBytes] at htake
  refine ofResource_eq_ok_iff.mpr ⟨f, rest.take (entrySize * f.count)
    ++ r'.data.drop f.header.bodyStart, ?_, ?_, ?_, ?_⟩
  · rw [← List.append_assoc, ← htake, List.take_append_drop]
  · rw [List.length_append, List.length_take, Nat.min_eq_left hroom]
    exact Nat.le_add_right _ _
  · rwa [hdirectory]
  · rw [hdirectory]

/-- A body that agrees in its span is read as before, under the same header. -/
lemma extractEntry_of_agreeOn {b : Body} {rest : Bytes}
    (haddress : a.header.bodyStart + entry.place < addressLimit)
    (hbody : a.resource.data.drop (a.header.bodyStart + entry.place)
      = b.bytes a.header.version a.header.flags entry.key ++ rest)
    (hspan : Bytes.AgreeOn (a.header.bodyStart + entry.place) (a.header.bodyStart + entry.place
      + (b.bytes a.header.version a.header.flags entry.key).length) a.resource.data r'.data) :
    extractEntry ⟨r', a.header, a.entries⟩ entry
      = .ok ⟨entry.key, b.plain a.header.version entry.key⟩ := by
  obtain ⟨rest', hrest⟩ := hspan.exists_append hbody
  exact extractEntry_eq_ok_iff.mpr ⟨haddress, b, rest', hrest, rfl⟩

/-- **A method is read from its own bytes.** Where a method is read, its body takes up a span
behind the directory. Every byte string that agrees with the resource in front of the bodies and
in this span, and is whatever it is elsewhere, is a resource, is opened with the same header and
the same directory, and the method is read from it as the same stream. -/
theorem extract_local (hopen : ofResource r = .ok a) (hread : a.extract key = .ok s) :
    ∃ start finish, a.span? key = some (start, finish)
      ∧ a.header.bodyStart ≤ start ∧ start < finish ∧ finish ≤ r.data.length
      ∧ ∀ data : Bytes, Bytes.AgreeOn 0 a.header.bodyStart r.data data →
        Bytes.AgreeOn start finish r.data data →
        ∃ r' a', Resource.ofBytes data = .ok r' ∧ ofResource r' = .ok a'
          ∧ a'.header = a.header ∧ a'.entries = a.entries ∧ a'.extract key = .ok s := by
  have hresource : a.resource = r := by
    obtain ⟨f, rest, -, -, -, rfl⟩ := ofResource_eq_ok_iff.mp hopen
    rfl
  obtain ⟨entry, hentry, hbody⟩ := extract_eq_ok_iff.mp hread
  obtain ⟨haddress, b, rest, hbytes, rfl⟩ := extractEntry_eq_ok_iff.mp hbody
  have hpos := b.length_bytes_pos a.header.version a.header.flags entry.key
  have hend : a.header.bodyStart + entry.place
      + (b.bytes a.header.version a.header.flags entry.key).length ≤ r.data.length := by
    have hlength := congrArg List.length hbytes
    rw [hresource, List.length_drop, List.length_append] at hlength
    omega
  refine ⟨_, _, span?_eq hentry hbytes, Nat.le_add_right _ _, Nat.lt_add_of_pos_right hpos, hend,
    fun data hfront hspan => ?_⟩
  -- the first byte of the body is there, so there are bytes
  have hne : data ≠ [] := by
    rintro rfl
    have hfirst := hspan _ le_rfl (Nat.lt_add_of_pos_right hpos)
    rw [List.getElem?_nil, eq_comm, List.getElem?_eq_none_iff] at hfirst
    omega
  refine ⟨⟨data, hne⟩, _, dif_neg hne, opened_of_agreeOn hopen hfront, rfl, rfl, ?_⟩
  rw [← hresource] at hspan
  exact extract_eq_ok_iff.mpr ⟨entry, hentry, extractEntry_of_agreeOn haddress hbytes hspan⟩

/-- Two bodies, the one inside the other: four bytes, of which the second and the third are the
body of the first method. -/
def sampleShared : Resource :=
  ⟨[0x45, 0x5A, 0x56, 0x4D, 1, 0, 0, 0, 0x02, 1, 0, 0, 6, 7, 0, 0, 0, 1, 0, 0, 0,
    2, 0, 0, 6, 9, 0, 0, 0, 0, 0, 0, 0, 3, 1, 0x2A, 5], by decide⟩

/-- What is read of them. -/
def sampleSharedOpened : Archive :=
  ⟨sampleShared, ⟨.v1, ⟨false⟩, 2, 9, 33⟩,
    [⟨⟨⟨0x06000001⟩, 7⟩, 1⟩, ⟨⟨⟨0x06000002⟩, 9⟩, 0⟩]⟩

/-- The same bytes with the outer body damaged: its first byte is another, its last is missing. -/
def sampleDamaged : Bytes := (sampleShared.data.set 33 0xFF).take 36

theorem extract_local_shared :
    ofResource sampleShared = .ok sampleSharedOpened
      ∧ sampleSharedOpened.extract ⟨⟨0x06000001⟩, 7⟩ = .ok ⟨⟨⟨0x06000001⟩, 7⟩, [140]⟩
      ∧ sampleSharedOpened.span? ⟨⟨0x06000001⟩, 7⟩ = some (34, 36)
      ∧ ∃ r' a', Resource.ofBytes sampleDamaged = .ok r' ∧ ofResource r' = .ok a'
        ∧ a'.extract ⟨⟨0x06000001⟩, 7⟩ = .ok ⟨⟨⟨0x06000001⟩, 7⟩, [140]⟩ := by
  have hopen : ofResource sampleShared = .ok sampleSharedOpened := by cbv
  have hread : sampleSharedOpened.extract ⟨⟨0x06000001⟩, 7⟩
      = .ok ⟨⟨⟨0x06000001⟩, 7⟩, [140]⟩ := by cbv
  have hspan : sampleSharedOpened.span? ⟨⟨0x06000001⟩, 7⟩ = some (34, 36) := by cbv
  obtain ⟨start, finish, hsome, -, -, -, hlocal⟩ := extract_local hopen hread
  obtain ⟨rfl, rfl⟩ := Prod.mk.inj (Option.some.inj (hspan.symm.trans hsome))
  obtain ⟨r', a', hr', ha', -, -, hread'⟩ := hlocal sampleDamaged (by decide) (by decide)
  exact ⟨hopen, hread, hspan, r', a', hr', ha', hread'⟩

end Archive

end OpcodeRecovery
