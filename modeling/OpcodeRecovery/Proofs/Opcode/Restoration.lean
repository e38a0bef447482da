import Mathlib.Tactic
import OpcodeRecovery.Opcode.Resolve
import OpcodeRecovery.Proofs.Opcode.Conservation
import OpcodeRecovery.Proofs.Opcode.Injectivity

/-!
Profiles that were kept, whole or in parts, come to the set they were taken from.

* `Ledger.Positive`: no key has the count zero. Such ledgers are equal if their counts are
  (`Ledger.Positive.ext`), and so are the profiles whose ledgers are such (`Profile.Tidy.ext`), one
  `Profile.Counter` after the other.
* `ProfileSet.Gathered.tidy`: what comes of counting and merging is tidy, and every profile stands
  under its own opcode.
* `ProfileSet.Parts`: profiles that add up to those of a set. The profiles of a set are parts of it
  (`ProfileSet.Gathered.parts_values`), so are parts in another order (`ProfileSet.Parts.perm`), and
  the parts of two sets are those of the merged one (`ProfileSet.Parts.merge`).
* `ProfileSet.ofProfiles_restores`: parts are put together to the profiles of the set, and resolve
  to its mapping.
-/

namespace OpcodeRecovery

/-! ### Counts that are not zero -/

namespace Ledger

variable {κ : Type} [Ranked κ] {a b : Ledger κ ℕ}

/-- No key has the count zero. -/
def Positive (a : Ledger κ ℕ) : Prop := ∀ k n, a.get? k = some n → 0 < n

lemma Positive.empty : Positive (.empty : Ledger κ ℕ) := fun _ _ h => by cases h

lemma Positive.mergeWith (ha : a.Positive) (hb : b.Positive) :
    (a.mergeWith (· + ·) b).Positive :=
  forall_get?_mergeWith (fun _ _ _ hv _ => Nat.add_pos_left hv _) ha hb

/-- A count that is not zero tells whether the key is there, so the counts are all there is. -/
lemma Positive.get?_eq (ha : a.Positive) (k : κ) :
    a.get? k = if a.count k = 0 then none else some (a.count k) := by
  rw [count]
  cases hk : a.get? k with
  | none => rfl
  | some n => simp [(ha k n hk).ne']

lemma Positive.ext (ha : a.Positive) (hb : b.Positive) (h : ∀ k, a.count k = b.count k) :
    a = b :=
  ext_get? fun k => by rw [ha.get?_eq, hb.get?_eq, h]

end Ledger

/-! ### Counters -/

namespace Profile

/-- The counters of a profile, one for each key of its histograms. -/
inductive Counter where
  | occurrences
  | methods
  | methodEntry
  | methodExit
  | nextLeader
  | branchTarget
  | inTry
  | inHandler
  | exitsRegion
  | emptyStack
  | shape (s : OperandShape)
  | successor (o : UInt8)
  | predecessor (o : UInt8)

/-- What a counter of a profile shows. -/
def Counter.read : Counter → Profile → ℕ
  | occurrences, p => p.occurrences
  | methods, p => p.methods
  | methodEntry, p => p.methodEntry
  | methodExit, p => p.methodExit
  | nextLeader, p => p.nextLeader
  | branchTarget, p => p.branchTarget
  | inTry, p => p.inTry
  | inHandler, p => p.inHandler
  | exitsRegion, p => p.exitsRegion
  | emptyStack, p => p.emptyStack
  | shape s, p => p.shapes.count s
  | successor o, p => p.successors.count o
  | predecessor o, p => p.predecessors.count o

/-- All counters are added when profiles are. -/
lemma Counter.additive_read (c : Counter) : Additive c.read := by
  intro p q
  cases c with
  | shape s => exact Ledger.count_mergeWith _ _ s
  | successor o => exact Ledger.count_mergeWith _ _ o
  | predecessor o => exact Ledger.count_mergeWith _ _ o
  | _ => rfl

/-- The histograms of the profile have no entries that are zero. -/
structure Tidy (p : Profile) : Prop where
  shapes : p.shapes.Positive
  successors : p.successors.Positive
  predecessors : p.predecessors.Positive

lemma Tidy.add {p q : Profile} (hp : p.Tidy) (hq : q.Tidy) : (p.add q).Tidy where
  shapes := hp.shapes.mergeWith hq.shapes
  successors := hp.successors.mergeWith hq.successors
  predecessors := hp.predecessors.mergeWith hq.predecessors

lemma positive_single {κ : Type} [Ranked κ] (o : Option κ) : (single o).Positive := by
  cases o with
  | none => exact .empty
  | some i =>
      intro k n h
      by_cases hk : k = i
      · rw [hk, single, Ledger.add, Ledger.get?_upsert_self] at h
        exact Option.some.inj h ▸ Nat.succ_pos _
      · rw [single, Ledger.add, Ledger.get?_upsert_of_ne _ _ hk] at h
        cases h

lemma tidy_ofInstruction (m : Method) (previous : Option Instruction) (i : Instruction)
    (following : Option Instruction) (first : Bool) :
    (ofInstruction m previous i following first).Tidy :=
  ⟨positive_single _, positive_single _, positive_single _⟩

/-- Tidy profiles of one opcode are equal if their counters are. -/
lemma Tidy.ext {p q : Profile} (hp : p.Tidy) (hq : q.Tidy) (hopcode : p.opcode = q.opcode)
    (h : ∀ c : Counter, c.read p = c.read q) : p = q := by
  have hshapes := hp.shapes.ext hq.shapes fun s => h (.shape s)
  have hsuccessors := hp.successors.ext hq.successors fun o => h (.successor o)
  have hpredecessors := hp.predecessors.ext hq.predecessors fun o => h (.predecessor o)
  obtain ⟨⟩ := p
  obtain ⟨⟩ := q
  rw [Profile.mk.injEq]
  exact ⟨hopcode, h .occurrences, h .methods, hshapes, h .methodEntry, h .methodExit,
    h .nextLeader, h .branchTarget, h .inTry, h .inHandler, h .exitsRegion, h .emptyStack,
    hsuccessors, hpredecessors⟩

end Profile

/-! ### Parts -/

namespace ProfileSet

open Profile (Counter)

variable {s t : ProfileSet} {ms : List Method} {ps qs : List Profile}

/-- What comes of counting and merging is tidy, and every profile stands under its own opcode. -/
lemma Gathered.tidy (hs : Gathered s ms) :
    ∀ o p, s.profiles.get? o = some p → p.opcode = o ∧ p.Tidy := by
  have hadd : ∀ (o : UInt8) (p q : Profile), p.opcode = o ∧ p.Tidy → q.opcode = o ∧ q.Tidy →
      (p.add q).opcode = o ∧ (p.add q).Tidy :=
    fun _ _ _ hp hq => ⟨hp.1, hp.2.add hq.2⟩
  induction hs with
  | empty => exact fun _ _ h => by cases h
  | accumulate h m ih =>
      rw [ProfileSet.accumulate, addInstructions_eq_foldl]
      refine forall_get?_foldl_addProfile hadd (forall_mem_contributions _ _ _ _ ?_) ih
      exact fun _ _ _ _ => ⟨rfl, Profile.tidy_ofInstruction ..⟩
  | merge hs ht ihs iht => exact Ledger.forall_get?_mergeWith hadd ihs iht

/-- The profiles add up to those of the set: they have opcodes of the set and no histogram entries
that are zero, and each counter of an opcode is shared among them. -/
structure Parts (s : ProfileSet) (ps : List Profile) : Prop where
  met : ∀ p ∈ ps, p.opcode ∈ s.opcodes
  tidy : ∀ p ∈ ps, p.Tidy
  adds_up : ∀ (c : Counter) (o : UInt8),
    (ps.map fun p => if p.opcode = o then c.read p else 0).sum = countOf c.read s.profiles o

/-- Parts in another order are parts. -/
lemma Parts.perm (h : s.Parts ps) (hperm : qs.Perm ps) : s.Parts qs where
  met p hp := h.met p (hperm.mem_iff.mp hp)
  tidy p hp := h.tidy p (hperm.mem_iff.mp hp)
  adds_up c o := by rw [(hperm.map _).sum_eq, h.adds_up]

lemma mem_opcodes_merge {o : UInt8} : o ∈ (s.merge t).opcodes ↔ o ∈ s.opcodes ∨ o ∈ t.opcodes := by
  simp only [opcodes, merge, Ledger.mem_keys_iff, Ledger.get?_mergeWith, Option.isSome_merge,
    Bool.or_eq_true]

/-- The parts of two sets are parts of the merged set. -/
lemma Parts.merge (hs : s.Parts ps) (ht : t.Parts qs) : (s.merge t).Parts (ps ++ qs) where
  met p hp := mem_opcodes_merge.mpr ((List.mem_append.mp hp).imp (hs.met p) (ht.met p))
  tidy := List.forall_mem_append.mpr ⟨hs.tidy, ht.tidy⟩
  adds_up c o := by
    rw [List.map_append, List.sum_append, hs.adds_up, ht.adds_up, ProfileSet.merge,
      countOf_mergeWith c.additive_read]

/-- The profiles of a ledger come to the ledger again. -/
lemma foldl_addProfile_values {l : Ledger UInt8 Profile} (h : Keyed l) :
    l.values.foldl addProfile .empty = l := by
  have hstep : l.values.foldl addProfile .empty = Ledger.empty.mergeWith Profile.add l := by
    rw [Ledger.values, List.foldl_map, Ledger.mergeWith]
    refine List.foldl_ext _ _ _ fun l' e he => ?_
    rw [addProfile, h e.1 e.2 (Ledger.mem_entries_iff.mp he)]
    refine congrArg (l'.upsert e.1) (funext fun old => ?_)
    cases old <;> rfl
  rw [hstep, Ledger.empty_mergeWith]

/-- The profiles of a set are parts of it. -/
lemma Gathered.parts_values (hs : Gathered s ms) : s.Parts s.profiles.values := by
  have hkept : ∀ p ∈ s.profiles.values, s.profiles.get? p.opcode = some p ∧ p.Tidy := by
    intro p hp
    obtain ⟨⟨o, p⟩, he, rfl⟩ := List.mem_map.mp hp
    have hget := Ledger.mem_entries_iff.mp he
    obtain ⟨rfl, htidy⟩ := hs.tidy o p hget
    exact ⟨hget, htidy⟩
  refine ⟨fun p hp => ?_, fun p hp => (hkept p hp).2, fun c o => ?_⟩
  · rw [opcodes, Ledger.mem_keys_iff, (hkept p hp).1]
    rfl
  · rw [← countOf_foldl_addProfile c.additive_read,
      foldl_addProfile_values fun o p hp => (hs.tidy o p hp).1]

/-- Parts are added up to the profiles of the set. -/
lemma Parts.foldl_eq (hps : s.Parts ps) (hs : Gathered s ms) :
    ps.foldl addProfile .empty = s.profiles := by
  have hkept : ∀ o q, (ps.foldl addProfile .empty).get? o = some q →
      o ∈ s.opcodes ∧ q.opcode = o ∧ q.Tidy :=
    forall_get?_foldl_addProfile
      (fun _ _ _ hp hq => ⟨hp.1, hp.2.1, hp.2.2.add hq.2.2⟩)
      (fun p hp => ⟨hps.met p hp, rfl, hps.tidy p hp⟩) (fun _ _ h => by cases h)
  have hcount (c : Counter) (o : UInt8) :
      countOf c.read (ps.foldl addProfile .empty) o = countOf c.read s.profiles o := by
    rw [countOf_foldl_addProfile c.additive_read, hps.adds_up]
  refine Ledger.ext_get? fun o => ?_
  cases hq : (ps.foldl addProfile .empty).get? o with
  | none =>
      cases hp : s.profiles.get? o with
      | none => rfl
      | some p =>
          -- an opcode of the set is counted for some method, so it has a part
          have hmethods := hcount .methods o
          rw [countOf, countOf, hq, hp] at hmethods
          exact absurd hmethods (Nat.ne_of_lt (hs.conserved.met hp).1)
  | some q =>
      obtain ⟨hmet, hqo, hqtidy⟩ := hkept o q hq
      obtain ⟨p, hp⟩ := Option.isSome_iff_exists.mp (Ledger.mem_keys_iff.mp hmet)
      obtain ⟨hpo, hptidy⟩ := hs.tidy o p hp
      have hread (c : Counter) : c.read q = c.read p := by
        have hc := hcount c o
        rw [countOf, countOf, hq, hp] at hc
        exact hc
      rw [hp, hqtidy.ext hptidy (hqo.trans hpo.symm) hread]

/-! ### Putting together -/

lemma profiles_ofProfiles (ps : List Profile) :
    (ofProfiles ps).profiles = ps.foldl addProfile .empty :=
  (List.foldl_hom ProfileSet.profiles fun _ _ => rfl).symm

lemma instructions_ofProfiles (ps : List Profile) :
    (ofProfiles ps).instructions = (ps.map (·.occurrences)).sum := by
  rw [List.sum_eq_foldl, List.foldl_map]
  exact (List.foldl_hom ProfileSet.instructions fun _ _ => rfl).symm

end ProfileSet

/-- A mapping is resolved from the profiles of a set, whatever its totals are. -/
lemma Resolver.resolve_congr {s t : ProfileSet} (h : s.profiles = t.profiles) (r : Resolver)
    (known : List UInt8) : r.resolve s known = r.resolve t known := by
  obtain ⟨profiles, _, _⟩ := s
  obtain ⟨profiles', _, _⟩ := t
  obtain rfl : profiles = profiles' := h
  rfl

namespace ProfileSet

/-- **Profiles that were kept resolve to the same mapping.** Let a set come of counting and merging
methods in any way, and let its profiles be taken in any order, or be split into any profiles that
add up to them. The set that is made of these has the same profiles, for as many instructions, and
resolves to the same mapping, whatever the signatures, the score, the demands and the opcodes known
beforehand are. -/
theorem ofProfiles_restores {s : ProfileSet} {ms : List Method} (hs : Gathered s ms)
    {ps : List Profile} (hps : ps.Perm s.profiles.values ∨ s.Parts ps) :
    (ofProfiles ps).profiles = s.profiles ∧ (ofProfiles ps).instructions = s.instructions
      ∧ ∀ (r : Resolver) (known : List UInt8),
        r.resolve (ofProfiles ps) known = r.resolve s known := by
  have hparts : s.Parts ps := hps.elim hs.parts_values.perm id
  have hprofiles : (ofProfiles ps).profiles = s.profiles := by
    rw [profiles_ofProfiles, hparts.foldl_eq hs]
  refine ⟨hprofiles, ?_, Resolver.resolve_congr hprofiles⟩
  calc (ofProfiles ps).instructions
      = (ps.map (·.occurrences)).sum := instructions_ofProfiles ps
    _ = sumOf (·.occurrences) (ps.foldl addProfile .empty) :=
        (sumOf_foldl_addProfile (fun _ _ => rfl) ps).symm
    _ = s.instructions := by rw [hparts.foldl_eq hs, hs.conserved.instructions]

/-- The profiles of the two sets of which the sample is merged; both sets have the opcode `0x01`. -/
def sampleParts : List Profile :=
  ((empty.accumulate sampleTwice).accumulate sampleSilent).profiles.values
    ++ (empty.accumulate sampleLoop).profiles.values

theorem ofProfiles_restores_sample :
    Gathered sampleSet [sampleLoop, sampleTwice, sampleSilent]
      ∧ sampleSet.profiles.values.reverse.Perm sampleSet.profiles.values
      ∧ (ofProfiles sampleSet.profiles.values.reverse).profiles = sampleSet.profiles
      ∧ sampleSet.Parts sampleParts
      ∧ sampleParts.map (·.opcode) = [0x01, 0x01, 0x30]
      ∧ (ofProfiles sampleParts).profiles = sampleSet.profiles
      ∧ (ofProfiles sampleParts).instructions = 4
      ∧ (Resolver.sample.resolve (ofProfiles sampleParts) [9]).mapping
        = (Resolver.sample.resolve sampleSet [9]).mapping := by
  have hloop := Gathered.empty.accumulate sampleLoop
  have htwice := (Gathered.empty.accumulate sampleTwice).accumulate sampleSilent
  have hgathered : Gathered sampleSet [sampleLoop, sampleTwice, sampleSilent] := hloop.merge htwice
  have hreverse := List.reverse_perm sampleSet.profiles.values
  have hparts : sampleSet.Parts sampleParts :=
    (hloop.parts_values.merge htwice.parts_values).perm List.perm_append_comm
  obtain ⟨hprofiles, hinstructions, hresolve⟩ := ofProfiles_restores hgathered (.inr hparts)
  refine ⟨hgathered, hreverse, (ofProfiles_restores hgathered (.inl hreverse)).1, hparts, ?_,
    hprofiles, hinstructions, ?_⟩
  · decide +kernel
  · rw [hresolve]

end ProfileSet

end OpcodeRecovery
