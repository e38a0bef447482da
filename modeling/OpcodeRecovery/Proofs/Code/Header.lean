import Mathlib.Tactic
import OpcodeRecovery.Code.Assembly
import OpcodeRecovery.Code.Decode
import OpcodeRecovery.Proofs.Bytes.SevenBit
import OpcodeRecovery.Proofs.Outcome

/-!
What stands in front of the code of a method stream: the flags byte and the exception regions.

* `Decode.splitStream_build`: regions and code are split as they were put together, in whatever
  way a stream may otherwise announce the same regions.
* `Decode.of_splitStream`: the code of a stream is its tail, and what its regions say are 32-bit
  numbers.
* `Decode.mapM_checkRegion_eq_ok_iff`: regions are accepted exactly if they lie in the code.
* `decodeMethod_eq_ok_iff` and `decodeMethod_build` join header and code.
-/

namespace OpcodeRecovery

/-! ### One region -/

lemma RegionKind.ofNumber?_eq_some_iff {n : ℕ} {kind : RegionKind} :
    RegionKind.ofNumber? n = some kind ↔ n = kind.number := by
  constructor
  · intro h
    have hfound := List.find?_some h
    exact (beq_iff_eq.mp hfound).symm
  · rintro rfl
    cases kind <;> rfl

/-- The numbers of a region as they are read. -/
def Region.record (r : Region) : Decode.RegionRecord :=
  ⟨r.kind.number, r.tryStart, r.tryLength, r.handlerStart, r.handlerLength⟩

namespace Decode

/-- The places and lengths of a region have 32 bits each. -/
structure RegionRecord.Fits (r : RegionRecord) : Prop where
  tryStart_lt : r.tryStart < 2 ^ 32
  tryLength_lt : r.tryLength < 2 ^ 32
  handlerStart_lt : r.handlerStart < 2 ^ 32
  handlerLength_lt : r.handlerLength < 2 ^ 32

/-- A region inside a code that 32 bits can count fits. -/
lemma fits_of_inside {codeSize : ℕ} {r : Region} (hcode : codeSize < 2 ^ 32)
    (hinside : r.tryEnd ≤ codeSize ∧ r.handlerEnd ≤ codeSize) : r.record.Fits := by
  simp only [Region.tryEnd, Region.handlerEnd] at hinside
  constructor <;> (simp only [Region.record]; omega)

/-- Whatever is read as a region fits. -/
lemma regionRecord_fits (bs : Bytes) : (regionRecord bs).Fits :=
  ⟨Bytes.toNatLE_take_lt 4 _, Bytes.toNatLE_take_lt 4 _, Bytes.toNatLE_take_lt 4 _,
    Bytes.toNatLE_take_lt 4 _⟩

/-- The `i`-th of some 32-bit numbers is read back from its place. -/
lemma toNatLE_of_numbers {vs : List ℕ} {i v : ℕ} (rest : Bytes) (hv : vs[i]? = some v)
    (hlt : v < 2 ^ 32) :
    Bytes.toNatLE (((vs.flatMap (Bytes.ofNatLE 4) ++ rest).drop (4 * i)).take 4) = v := by
  induction vs generalizing i with
  | nil => cases hv
  | cons w vs ih =>
      rw [List.flatMap_cons, List.append_assoc]
      cases i with
      | zero =>
          obtain rfl := Option.some.inj hv
          rw [Nat.mul_zero, List.drop_zero, List.take_left' (Bytes.length_ofNatLE 4 w)]
          exact Bytes.toNatLE_ofNatLE_of_lt hlt
      | succ i =>
          rw [Nat.mul_add_one, Nat.add_comm, ← List.drop_drop,
            List.drop_left' (Bytes.length_ofNatLE 4 w)]
          exact ih hv

@[simp] lemma length_regionBytes (r : Region) : (Assembly.regionBytes r).length = regionSize := by
  simp [Assembly.regionBytes, regionSize]

/-- A region is read back in front of anything. -/
lemma regionRecord_append {r : Region} (rest : Bytes) (h : r.record.Fits) :
    regionRecord (Assembly.regionBytes r ++ rest) = r.record := by
  have hkind : Bytes.toNatLE [UInt8.ofNat r.kind.number] = r.kind.number := by
    cases r.kind <;> rfl
  have hfield {i v : ℕ}
      (hv : [r.tryStart, r.tryLength, r.handlerStart, r.handlerLength][i]? = some v)
      (hlt : v < 2 ^ 32) :
      Bytes.toNatLE (((Assembly.regionBytes r ++ rest).drop (1 + 4 * i)).take 4) = v := by
    rw [Assembly.regionBytes, List.cons_append, Nat.add_comm, List.drop_succ_cons]
    exact toNatLE_of_numbers rest hv hlt
  rw [regionRecord, Region.record, RegionRecord.mk.injEq]
  exact ⟨hkind, hfield rfl h.tryStart_lt, hfield rfl h.tryLength_lt,
    hfield rfl h.handlerStart_lt, hfield rfl h.handlerLength_lt⟩

/-- The regions are read back in front of anything. -/
lemma regionRecords_append {rs : List Region} (rest : Bytes) (h : ∀ r ∈ rs, r.record.Fits) :
    regionRecords rs.length (rs.flatMap Assembly.regionBytes ++ rest) = rs.map Region.record := by
  induction rs with
  | nil => rfl
  | cons r rs ih =>
      rw [List.length_cons, regionRecords, List.flatMap_cons, List.append_assoc,
        regionRecord_append _ (h r List.mem_cons_self), List.drop_left' (length_regionBytes r),
        ih fun s hs => h s (List.mem_cons_of_mem r hs), List.map_cons]

lemma length_regionRecords (n : ℕ) (bs : Bytes) : (regionRecords n bs).length = n := by
  induction n generalizing bs with
  | zero => rfl
  | succ n ih => rw [regionRecords, List.length_cons, ih]

lemma fits_of_mem_regionRecords {n : ℕ} {bs : Bytes} :
    ∀ r ∈ regionRecords n bs, r.Fits := by
  induction n generalizing bs with
  | zero =>
      intro r hr
      cases hr
  | succ n ih =>
      intro r hr
      rcases List.mem_cons.mp hr with rfl | hr
      · exact regionRecord_fits bs
      · exact ih r hr

/-- A region is accepted exactly if its kind is known and it lies in the code. -/
lemma checkRegion_eq_ok_iff {codeSize : ℕ} {record : RegionRecord} {r : Region} :
    checkRegion codeSize record = .ok r
      ↔ record = r.record ∧ r.tryEnd ≤ codeSize ∧ r.handlerEnd ≤ codeSize := by
  rw [checkRegion]
  constructor
  · intro h
    cases hkind : RegionKind.ofNumber? record.kind with
    | none =>
        rw [hkind] at h
        cases h
    | some kind =>
        rw [hkind] at h
        dsimp only at h
        split_ifs at h with hinside
        · obtain rfl := Except.ok.inj h
          refine ⟨?_, hinside⟩
          rw [Region.record, ← RegionKind.ofNumber?_eq_some_iff.mp hkind]
        · exact absurd h reject_ne_ok
  · rintro ⟨rfl, hinside⟩
    rw [show RegionKind.ofNumber? r.record.kind = some r.kind from
      RegionKind.ofNumber?_eq_some_iff.mpr rfl]
    exact if_pos hinside

/-- Regions are accepted exactly if they lie in the code. -/
lemma mapM_checkRegion_eq_ok_iff {codeSize : ℕ} {records : List RegionRecord} {rs : List Region} :
    records.mapM (checkRegion codeSize) = .ok rs
      ↔ records = rs.map Region.record
        ∧ ∀ r ∈ rs, r.tryEnd ≤ codeSize ∧ r.handlerEnd ≤ codeSize := by
  rw [mapM_eq_ok_iff]
  induction rs generalizing records with
  | nil => simp
  | cons r rs ih =>
      rw [List.forall₂_cons_right_iff, List.map_cons, List.forall_mem_cons]
      constructor
      · rintro ⟨record, records, hone, hmany, rfl⟩
        obtain ⟨rfl, hinside⟩ := checkRegion_eq_ok_iff.mp hone
        obtain ⟨rfl, hrest⟩ := ih.mp hmany
        exact ⟨rfl, hinside, hrest⟩
      · rintro ⟨rfl, hinside, hrest⟩
        exact ⟨_, _, checkRegion_eq_ok_iff.mpr ⟨rfl, hinside⟩, ih.mpr ⟨rfl, hrest⟩, rfl⟩

/-! ### The whole header -/

lemma length_flatMap_regionBytes (rs : List Region) :
    (rs.flatMap Assembly.regionBytes).length = regionSize * rs.length := by
  induction rs with
  | nil => rfl
  | cons r rs ih =>
      rw [List.flatMap_cons, List.length_append, length_regionBytes, ih, List.length_cons]
      ring

/-- Regions and code are split as they were put together. -/
lemma splitStream_build {a : Assembly} (hcount : a.regions.length < 2 ^ 32)
    (hfits : ∀ r ∈ a.regions, r.record.Fits) :
    splitStream a.build = .ok (a.regions.map Region.record, a.code) := by
  obtain ⟨regions, code⟩ := a
  cases regions with
  | nil => rfl
  | cons r rs =>
      have hmin : (r :: rs).length ≤ 0xFFFFFFFF := Nat.le_of_lt_succ hcount
      have hbuild : Assembly.build ⟨r :: rs, code⟩ = 1 :: (SevenBit.encode (r :: rs).length
          ++ ((r :: rs).flatMap Assembly.regionBytes ++ code)) := by
        rw [Assembly.build, List.isEmpty_cons, if_neg (by decide), List.cons_append,
          List.cons_append, List.append_assoc, Nat.min_eq_left hmin]
      have hlen := length_flatMap_regionBytes (r :: rs)
      have hroom : regionSize * (r :: rs).length
          ≤ ((r :: rs).flatMap Assembly.regionBytes ++ code).length := by
        rw [List.length_append, hlen]
        omega
      rw [hbuild, splitStream, if_neg (by decide), if_neg (by decide),
        SevenBit.decode_encode_append _ hcount]
      dsimp only
      rw [if_pos hroom, regionRecords_append _ hfits, List.drop_left' hlen]

/-- The code of a stream is its tail, there are fewer than `2 ^ 32` regions, and what they say
are 32-bit numbers. -/
lemma of_splitStream {data code : Bytes} {records : List RegionRecord}
    (h : splitStream data = .ok (records, code)) :
    code <:+ data ∧ records.length < 2 ^ 32 ∧ ∀ r ∈ records, r.Fits := by
  cases data with
  | nil => cases h
  | cons flags rest =>
      rw [splitStream] at h
      split_ifs at h with hflags hzero
      · exact absurd h reject_ne_ok
      · obtain ⟨rfl, rfl⟩ := Prod.mk.inj (Except.ok.inj h)
        exact ⟨List.suffix_cons flags rest, by simp, by simp⟩
      · cases hcount : SevenBit.decode rest with
        | truncated n =>
            rw [hcount] at h
            cases h
        | overflow n =>
            rw [hcount] at h
            cases h
        | value count n tail =>
            rw [hcount] at h
            dsimp only at h
            split_ifs at h with hroom
            · obtain ⟨rfl, rfl⟩ := Prod.mk.inj (Except.ok.inj h)
              obtain ⟨front, hfront⟩ := SevenBit.exists_append_of_decode hcount
              refine ⟨?_, ?_, fits_of_mem_regionRecords⟩
              · exact (List.drop_suffix _ tail).trans ⟨flags :: front, by rw [hfront]; rfl⟩
              · rw [length_regionRecords]
                exact SevenBit.value_lt_of_decode hcount
            · exact absurd h reject_ne_ok

end Decode

/-! ### Header and code -/

/-- A stream is decoded exactly if its regions lie in its code and the code is decoded. -/
lemma decodeMethod_eq_ok_iff {table : ShapeTable} {stream : Stream} {m : Method} :
    decodeMethod table stream = .ok m
      ↔ ∃ code regions is, Decode.splitStream stream.data = .ok (regions.map Region.record, code)
        ∧ (∀ r ∈ regions, r.tryEnd ≤ code.length ∧ r.handlerEnd ≤ code.length)
        ∧ decodeCode table code = .ok is
        ∧ m = Method.ofParts stream.key code.length is regions := by
  rw [decodeMethod]
  constructor
  · intro h
    obtain ⟨⟨records, code⟩, hsplit, hrest⟩ := bind_eq_ok_iff.mp h
    obtain ⟨regions, hregions, hrest⟩ := bind_eq_ok_iff.mp hrest
    obtain ⟨is, his, hm⟩ := bind_eq_ok_iff.mp hrest
    obtain ⟨rfl, hinside⟩ := Decode.mapM_checkRegion_eq_ok_iff.mp hregions
    exact ⟨code, regions, is, hsplit, hinside, his, (Except.ok.inj hm).symm⟩
  · rintro ⟨code, regions, is, hsplit, hinside, his, rfl⟩
    have hregions := Decode.mapM_checkRegion_eq_ok_iff.mpr ⟨rfl, hinside⟩
    simp only [hsplit, hregions, his, ok_bind, pure_eq_ok]

/-- A stream whose regions lie in the code is decoded as its code is. -/
lemma decodeMethod_of_split {table : ShapeTable} {stream : Stream} {code : Bytes}
    {regions : List Region}
    (hsplit : Decode.splitStream stream.data = .ok (regions.map Region.record, code))
    (hinside : ∀ r ∈ regions, r.tryEnd ≤ code.length ∧ r.handlerEnd ≤ code.length) :
    decodeMethod table stream
      = (decodeCode table code).map fun is => .ofParts stream.key code.length is regions := by
  have hregions := Decode.mapM_checkRegion_eq_ok_iff.mpr ⟨rfl, hinside⟩
  simp only [decodeMethod, hsplit, hregions, ok_bind]
  cases decodeCode table code <;> rfl

/-- A stream that was put together of regions in the code and a code that can be decoded is
decoded as these. -/
lemma decodeMethod_build {table : ShapeTable} {a : Assembly} {is : List Instruction}
    (key : MethodKey) (hcount : a.regions.length < 2 ^ 32)
    (hfits : ∀ r ∈ a.regions, r.record.Fits)
    (hinside : ∀ r ∈ a.regions, r.tryEnd ≤ a.code.length ∧ r.handlerEnd ≤ a.code.length)
    (hcode : decodeCode table a.code = .ok is) :
    decodeMethod table ⟨key, a.build⟩
      = .ok (Method.ofParts key a.code.length is a.regions) :=
  decodeMethod_eq_ok_iff.mpr
    ⟨_, _, is, Decode.splitStream_build hcount hfits, hinside, hcode, rfl⟩

end OpcodeRecovery
