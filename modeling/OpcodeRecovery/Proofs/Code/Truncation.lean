import Mathlib.Tactic
import OpcodeRecovery.Proofs.Bytes.SevenBit
import OpcodeRecovery.Proofs.Code.Faults

/-!
Which method streams fail with an error that is no fault in their bytes.

Whatever is wrong with a stream is reported as a fault, with one exception: the number of its
regions is read without a word of its own, and if the data ends there, the error is that of a read
beyond the end.

* `Decode.EndsInCount` says this of the bytes: a flags byte that announces regions, and behind it
  nothing but marked bytes, four at most.
* `Decode.splitStream_eq_outOfBounds_iff`: these are the streams that cannot be split for want of
  data. What follows the split finds nothing but faults (`Decode.checkRegion_faulty`,
  `decodeCode_faulty`), so they are the ones that cannot be decoded for want of data
  (`decodeMethod_eq_outOfBounds_iff`).
* `decodeMethod_faulty_iff`: every other stream is decoded or found malformed.
-/

namespace OpcodeRecovery

variable {table : ShapeTable} {stream : Stream} {data : Bytes}

namespace Decode

/-- The stream announces regions, and ends before it has said how many. -/
def EndsInCount (data : Bytes) : Prop :=
  ∃ marked : Bytes, data = 1 :: marked ∧ marked.length ≤ 4 ∧ ∀ b ∈ marked, 128 ≤ b.toNat

/-- With regions announced, a stream lacks data for their number exactly if the number is cut
off. -/
lemma splitStream_announcing_iff {rest : Bytes} :
    splitStream (1 :: rest) = .error .outOfBounds
      ↔ ∃ n, SevenBit.decode rest = .truncated n := by
  rw [splitStream, if_neg (by decide), if_neg (by decide)]
  cases SevenBit.decode rest with
  | truncated n => exact iff_of_true rfl ⟨n, rfl⟩
  | overflow n => exact iff_of_false (by simp [reject]) (by simp)
  | value count n tail =>
      refine iff_of_false ?_ (by simp)
      dsimp only
      split_ifs <;> simp [reject]

/-- A stream cannot be split for want of data exactly if it ends in the number of its regions. -/
lemma splitStream_eq_outOfBounds_iff :
    splitStream data = .error .outOfBounds ↔ EndsInCount data := by
  constructor
  · intro h
    cases data with
    | nil => cases h
    | cons flags rest =>
        have hflags : flags = 1 := by
          rw [splitStream] at h
          split_ifs at h with hknown hnone
          · cases h
          · exact UInt8.toNat_inj.mp (show flags.toNat = 1 by omega)
        subst hflags
        obtain ⟨n, hn⟩ := splitStream_announcing_iff.mp h
        obtain ⟨rfl, hle, hmarked⟩ := SevenBit.decode_eq_truncated_iff.mp hn
        exact ⟨rest, rfl, hle, hmarked⟩
  · rintro ⟨marked, rfl, hle, hmarked⟩
    exact splitStream_announcing_iff.mpr
      ⟨_, SevenBit.decode_eq_truncated_iff.mpr ⟨rfl, hle, hmarked⟩⟩

lemma checkRegion_faulty (codeSize : ℕ) (r : RegionRecord) : Faulty (checkRegion codeSize r) := by
  rw [checkRegion]
  cases RegionKind.ofNumber? r.kind with
  | none => exact .reject _
  | some kind =>
      dsimp only
      split_ifs
      · exact .ok _
      · exact .reject _

end Decode

/-- An error of a stream is a fault in its bytes, or that of a read beyond their end. -/
lemma StreamFault.format_or_outOfBounds {e : Error} (h : StreamFault e) :
    (∃ fault, e = .format fault) ∨ e = .outOfBounds := by
  cases h with
  | code h => exact .inl h.exists_fault
  | truncated => exact .inr rfl
  | empty | flags | overflow | longTable | regionKind | regionOutside => exact .inl ⟨_, rfl⟩

/-- A stream cannot be decoded for want of data exactly if it ends in the number of its regions. -/
lemma decodeMethod_eq_outOfBounds_iff :
    decodeMethod table stream = .error .outOfBounds ↔ Decode.EndsInCount stream.data := by
  rw [← Decode.splitStream_eq_outOfBounds_iff]
  constructor
  · intro h
    rcases bind_eq_error h with hsplit | ⟨parts, -, hrest⟩
    · exact hsplit
    · -- behind the split there is nothing but faults
      have hfaulty : Faulty (parts.1.mapM (Decode.checkRegion parts.2.length) >>= fun regions =>
          decodeCode table parts.2 >>= fun is =>
            pure (Method.ofParts stream.key parts.2.length is regions)) :=
        Faulty.bind (FailsBy.mapM (Decode.checkRegion_faulty _) _) fun regions =>
          (decodeCode_faulty _).bind fun is => .ok _
      obtain ⟨fault, hfault⟩ := hfaulty _ hrest
      cases hfault
  · intro h
    rw [decodeMethod, h]
    rfl

/-- **Which streams are decoded or found malformed**: all but those that end in the number of their
regions, and these fail with a read beyond the end of the data. -/
theorem decodeMethod_faulty_iff (table : ShapeTable) (stream : Stream) :
    (((∃ m, decodeMethod table stream = .ok m)
        ∨ ∃ fault, decodeMethod table stream = .error (.format fault))
      ↔ ¬ Decode.EndsInCount stream.data)
    ∧ (Decode.EndsInCount stream.data → decodeMethod table stream = .error .outOfBounds) := by
  refine ⟨?_, decodeMethod_eq_outOfBounds_iff.mpr⟩
  rw [← @decodeMethod_eq_outOfBounds_iff table]
  cases h : decodeMethod table stream with
  | ok m => simp
  | error e =>
      rcases (decodeMethod_fails stream e h).format_or_outOfBounds with ⟨fault, rfl⟩ | rfl
      · simp
      · simp

/-- A stream of a flags byte that announces regions, and of nothing else, is not found malformed. -/
theorem decodeMethod_of_lone_flag :
    decodeMethod .default ⟨⟨⟨0x06000001⟩, 7⟩, [1]⟩ = .error .outOfBounds
      ∧ ¬ ((∃ m, decodeMethod .default ⟨⟨⟨0x06000001⟩, 7⟩, [1]⟩ = .ok m)
        ∨ ∃ fault, decodeMethod .default ⟨⟨⟨0x06000001⟩, 7⟩, [1]⟩ = .error (.format fault)) := by
  have h : decodeMethod .default ⟨⟨⟨0x06000001⟩, 7⟩, [1]⟩ = .error .outOfBounds := rfl
  refine ⟨h, ?_⟩
  rw [h]
  simp

end OpcodeRecovery
