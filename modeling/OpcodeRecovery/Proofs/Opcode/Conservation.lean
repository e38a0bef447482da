import Mathlib
import OpcodeRecovery.Proofs.Opcode.Arithmetic
import OpcodeRecovery.Proofs.Opcode.Merging

/-!
Conservation laws of profiles: what the counts of an opcode, and those of all opcodes together, have
to do with one another.

* `Profile.Balanced` are the laws between the counts of one opcode. They hold of a single occurrence
  (`Profile.balanced_ofInstruction`) and of sums (`Profile.Balanced.add`).
* A quantity that is added when profiles are (`Profile.Additive`) is summed over all opcodes by
  `ProfileSet.sumOf` and looked up for one of them by `ProfileSet.countOf`. For one method, both are
  sums over what its instructions contribute (`ProfileSet.contributions`), and
  `ProfileSet.sum_neighbours` says that these count each pair of neighbours from both sides.
* `ProfileSet.Conserved` is what is true of a set and the methods that went into it. It is kept by
  merging (`ProfileSet.Conserved.merge`) and by counting a method
  (`ProfileSet.conserved_accumulate`), so it is true of all sets that come of these
  (`ProfileSet.Gathered.conserved`).
-/

namespace OpcodeRecovery

/-! ### One profile -/

namespace Profile

/-- The laws that hold between the counts of an opcode. Every occurrence has a shape; it has an
opcode behind it or is the last of its method, and one before it or is the first. Each of the other
counts is of some of the occurrences. -/
structure Balanced (p : Profile) : Prop where
  shapes : p.shapes.total = p.occurrences
  successors : p.successors.total + p.methodExit = p.occurrences
  predecessors : p.predecessors.total + p.methodEntry = p.occurrences
  noFallthrough : p.methodExit + p.nextLeader ≤ p.occurrences
  entered : p.branchTarget + p.methodEntry ≤ p.occurrences
  inTry : p.inTry ≤ p.occurrences
  inHandler : p.inHandler ≤ p.occurrences
  exitsRegion : p.exitsRegion ≤ p.occurrences
  emptyStack : p.emptyStack ≤ p.occurrences
  methods : p.methods ≤ p.occurrences

lemma tick_le_one (b : Bool) : tick b ≤ 1 := by
  cases b <;> decide

lemma count_single {κ : Type} [Ranked κ] [DecidableEq κ] (o : Option κ) (k : κ) :
    (single o).count k = if o = some k then 1 else 0 := by
  cases o with
  | none => rfl
  | some i =>
      by_cases hk : k = i
      · simp [single, Ledger.count, Ledger.add, hk]
      · simp [single, Ledger.count, Ledger.add, Ledger.get?_upsert_of_ne _ _ hk, Ne.symm hk]

/-- The laws hold of one occurrence. -/
lemma balanced_ofInstruction (m : Method) (previous : Option Instruction) (i : Instruction)
    (following : Option Instruction) (first : Bool) :
    (ofInstruction m previous i following first).Balanced where
  shapes := rfl
  successors := by cases following <;> rfl
  predecessors := by cases previous <;> rfl
  noFallthrough := by
    cases following with
    | none => rfl
    | some n => exact (Nat.zero_add _).trans_le (tick_le_one _)
  entered := by
    cases previous with
    | none => simp [ofInstruction, tick]
    | some n => exact tick_le_one _
  inTry := tick_le_one _
  inHandler := tick_le_one _
  exitsRegion := tick_le_one _
  emptyStack := tick_le_one _
  methods := tick_le_one _

/-- The laws hold of a sum if they hold of its parts. -/
lemma Balanced.add {p q : Profile} (hp : p.Balanced) (hq : q.Balanced) : (p.add q).Balanced where
  shapes := by
    simp only [Profile.add, Ledger.total_mergeWith, hp.shapes, hq.shapes]
  successors := by
    have hp := hp.successors
    have hq := hq.successors
    simp only [Profile.add, Ledger.total_mergeWith]
    omega
  predecessors := by
    have hp := hp.predecessors
    have hq := hq.predecessors
    simp only [Profile.add, Ledger.total_mergeWith]
    omega
  noFallthrough := by
    have hp := hp.noFallthrough
    have hq := hq.noFallthrough
    simp only [Profile.add]
    omega
  entered := by
    have hp := hp.entered
    have hq := hq.entered
    simp only [Profile.add]
    omega
  inTry := Nat.add_le_add hp.inTry hq.inTry
  inHandler := Nat.add_le_add hp.inHandler hq.inHandler
  exitsRegion := Nat.add_le_add hp.exitsRegion hq.exitsRegion
  emptyStack := Nat.add_le_add hp.emptyStack hq.emptyStack
  methods := Nat.add_le_add hp.methods hq.methods

/-- A quantity that is added when profiles are. -/
def Additive (g : Profile → ℕ) : Prop := ∀ p q, g (p.add q) = g p + g q

lemma additive_count_successors (o : UInt8) : Additive (·.successors.count o) :=
  fun _ _ => Ledger.count_mergeWith _ _ o

lemma additive_count_predecessors (o : UInt8) : Additive (·.predecessors.count o) :=
  fun _ _ => Ledger.count_mergeWith _ _ o

end Profile

namespace ProfileSet

open Profile (Additive)

variable {g : Profile → ℕ} {l l' : Ledger UInt8 Profile} {a b : UInt8}

/-! ### Sums over profiles -/

/-- A quantity, summed over all profiles. -/
def sumOf (g : Profile → ℕ) (l : Ledger UInt8 Profile) : ℕ := (l.values.map g).sum

/-- A quantity of the profile of one opcode, zero if the opcode was not met. -/
def countOf (g : Profile → ℕ) (l : Ledger UInt8 Profile) (a : UInt8) : ℕ :=
  ((l.get? a).map g).getD 0

lemma sumOf_mergeWith (hg : Additive g) (l l' : Ledger UInt8 Profile) :
    sumOf g (l.mergeWith Profile.add l') = sumOf g l + sumOf g l' :=
  Ledger.sum_mergeWith hg l l'

lemma countOf_mergeWith (hg : Additive g) (l l' : Ledger UInt8 Profile) (a : UInt8) :
    countOf g (l.mergeWith Profile.add l') a = countOf g l a + countOf g l' a := by
  rw [countOf, Ledger.get?_mergeWith, countOf, countOf]
  cases l.get? a with
  | none => simp
  | some p =>
      cases l'.get? a with
      | none => simp
      | some q => exact hg p q

lemma sumOf_addProfile (hg : Additive g) (l : Ledger UInt8 Profile) (p : Profile) :
    sumOf g (addProfile l p) = sumOf g l + g p := by
  rw [addProfile_eq_mergeWith, sumOf_mergeWith hg]
  rfl

lemma countOf_addProfile (hg : Additive g) (l : Ledger UInt8 Profile) (p : Profile) (a : UInt8) :
    countOf g (addProfile l p) a = countOf g l a + if p.opcode = a then g p else 0 := by
  rw [addProfile_eq_mergeWith, countOf_mergeWith hg]
  have hlone : countOf g (lone p) a = if p.opcode = a then g p else 0 := by
    rw [countOf, get?_lone]
    split_ifs <;> rfl
  rw [hlone]

/-! ### One method -/

/-- What the instructions of a method contribute, one profile each. -/
def contributions (m : Method) :
    Option Instruction → List UInt8 → List Instruction → List Profile
  | _, _, [] => []
  | previous, seen, i :: rest =>
    let first := !seen.contains i.opcode
    .ofInstruction m previous i rest.head? first
      :: contributions m (some i) (if first then i.opcode :: seen else seen) rest

lemma addInstructions_eq_foldl (m : Method) (previous : Option Instruction) (seen : List UInt8)
    (is : List Instruction) (l : Ledger UInt8 Profile) :
    addInstructions m previous seen is l
      = (contributions m previous seen is).foldl addProfile l := by
  induction is generalizing previous seen l with
  | nil => rfl
  | cons i is ih => rw [addInstructions_cons, ih, contributions, List.foldl_cons]

/-- A quantity that each profile adds to is the sum of what they add. -/
lemma foldl_addProfile_eq {G : Ledger UInt8 Profile → ℕ} {c : Profile → ℕ}
    (hG : ∀ l p, G (addProfile l p) = G l + c p) (ps : List Profile) (l : Ledger UInt8 Profile) :
    G (ps.foldl addProfile l) = G l + (ps.map c).sum := by
  induction ps generalizing l with
  | nil => rfl
  | cons p ps ih => rw [List.foldl_cons, ih, hG, List.map_cons, List.sum_cons, Nat.add_assoc]

/-- What holds of the profiles of a ledger and of those that are added to it, and is kept by sums,
holds of all profiles in the end. -/
lemma forall_get?_foldl_addProfile {P : UInt8 → Profile → Prop}
    (hadd : ∀ a p q, P a p → P a q → P a (p.add q)) {ps : List Profile}
    (hps : ∀ p ∈ ps, P p.opcode p) (hl : ∀ a p, l.get? a = some p → P a p) (a : UInt8) (p : Profile)
    (h : (ps.foldl addProfile l).get? a = some p) : P a p := by
  induction ps generalizing l with
  | nil => exact hl a p h
  | cons q ps ih =>
      obtain ⟨hq, hps⟩ := List.forall_mem_cons.mp hps
      refine ih hps ?_ h
      rw [addProfile_eq_mergeWith]
      refine Ledger.forall_get?_mergeWith hadd hl fun a p hp => ?_
      rw [get?_lone, Option.ite_none_right_eq_some] at hp
      obtain ⟨rfl, hp⟩ := hp
      exact Option.some.inj hp ▸ hq

lemma sumOf_foldl_addProfile (hg : Additive g) (ps : List Profile) :
    sumOf g (ps.foldl addProfile .empty) = (ps.map g).sum := by
  rw [foldl_addProfile_eq (sumOf_addProfile hg)]
  exact Nat.zero_add _

lemma countOf_foldl_addProfile (hg : Additive g) (ps : List Profile) (a : UInt8) :
    countOf g (ps.foldl addProfile .empty) a
      = (ps.map fun p => if p.opcode = a then g p else 0).sum := by
  have hstep (l : Ledger UInt8 Profile) (p : Profile) := countOf_addProfile hg l p a
  rw [foldl_addProfile_eq (G := (countOf g · a)) hstep]
  exact Nat.zero_add _

section Contributions

variable (m : Method) (previous : Option Instruction) (seen : List UInt8) (is : List Instruction)

/-- What holds of a single occurrence holds of all that is contributed. -/
lemma forall_mem_contributions {P : Profile → Prop}
    (h : ∀ previous i following first, P (.ofInstruction m previous i following first)) :
    ∀ p ∈ contributions m previous seen is, P p := by
  induction is generalizing previous seen with
  | nil => simp [contributions]
  | cons i is ih =>
      rw [contributions]
      exact List.forall_mem_cons.mpr ⟨h .., ih _ _⟩

/-- Each instruction is one occurrence. -/
lemma sum_occurrences :
    ((contributions m previous seen is).map (·.occurrences)).sum = is.length := by
  induction is generalizing previous seen with
  | nil => rfl
  | cons i is ih =>
      rw [contributions, List.map_cons, List.sum_cons, ih, List.length_cons, Nat.add_comm]
      rfl

/-- The first instruction is the only one that has none before it. -/
lemma sum_methodEntry : ((contributions m previous seen is).map (·.methodEntry)).sum
    = if previous = none ∧ is ≠ [] then 1 else 0 := by
  induction is generalizing previous seen with
  | nil => simp [contributions]
  | cons i is ih =>
      rw [contributions, List.map_cons, List.sum_cons, ih]
      cases previous <;> simp [Profile.ofInstruction, Profile.tick]

/-- The last instruction is the only one that has none behind it. -/
lemma sum_methodExit : ((contributions m previous seen is).map (·.methodExit)).sum
    = if is ≠ [] then 1 else 0 := by
  induction is generalizing previous seen with
  | nil => simp [contributions]
  | cons i is ih =>
      rw [contributions, List.map_cons, List.sum_cons, ih]
      cases is <;> simp [Profile.ofInstruction, Profile.tick]

/-- An opcode counts for the method where it is met for the first time. -/
lemma sum_methods (a : UInt8) :
    ((contributions m previous seen is).map fun p => if p.opcode = a then p.methods else 0).sum
      = if a ∉ seen ∧ a ∈ is.map (·.opcode) then 1 else 0 := by
  induction is generalizing previous seen with
  | nil => simp [contributions]
  | cons i is ih =>
      rw [contributions, List.map_cons, List.sum_cons, ih]
      by_cases ha : i.opcode = a
      · subst ha
        by_cases hseen : i.opcode ∈ seen <;> simp [Profile.ofInstruction, Profile.tick, hseen]
      · have hseen : a ∈ (if !seen.contains i.opcode then i.opcode :: seen else seen)
            ↔ a ∈ seen := by
          split_ifs <;> simp [Ne.symm ha]
        have hmem : a ∈ (i :: is).map (·.opcode) ↔ a ∈ is.map (·.opcode) := by
          simp [Ne.symm ha]
        simp only [Profile.ofInstruction, ha, hseen, hmem, if_false, Nat.zero_add]

/-- Neighbours are counted from both sides: as the follower of the one and as the predecessor of the
other. What is open is the neighbour before the first instruction. -/
lemma sum_neighbours (a b : UInt8) :
    ((contributions m previous seen is).map
        fun p => if p.opcode = a then p.successors.count b else 0).sum
      + (if previous.map (·.opcode) = some a ∧ is.head?.map (·.opcode) = some b then 1 else 0)
      = ((contributions m previous seen is).map
        fun p => if p.opcode = b then p.predecessors.count a else 0).sum := by
  induction is generalizing previous seen with
  | nil => simp [contributions]
  | cons i is ih =>
      simp only [contributions, List.map_cons, List.sum_cons]
      rw [← ih]
      simp only [Profile.ofInstruction, Profile.count_single, Option.map_some, List.head?_cons,
        Option.some.injEq, ite_and]
      split_ifs <;> omega

end Contributions

/-! ### Any methods -/

/-- How often one opcode stands right behind another, as the other one counts it. -/
def follows (s : ProfileSet) (a b : UInt8) : ℕ := countOf (·.successors.count b) s.profiles a

/-- How often one opcode stands right before another, as the other one counts it. -/
def precedes (s : ProfileSet) (b a : UInt8) : ℕ := countOf (·.predecessors.count a) s.profiles b

/-- What is conserved while methods are counted. -/
structure Conserved (s : ProfileSet) (ms : List Method) : Prop where
  methods : s.methods = ms.length
  instructions : sumOf (·.occurrences) s.profiles = s.instructions
  entries : sumOf (·.methodEntry) s.profiles = ms.countP fun m => !m.instructions.isEmpty
  exits : sumOf (·.methodExit) s.profiles = ms.countP fun m => !m.instructions.isEmpty
  balanced : ∀ {a p}, s.get? a = some p → p.Balanced
  met : ∀ {a p}, s.get? a = some p → 1 ≤ p.methods ∧ p.methods ≤ s.methods
  neighbours : ∀ a b, s.follows a b = s.precedes b a

lemma Conserved.empty : Conserved .empty [] where
  methods := rfl
  instructions := rfl
  entries := rfl
  exits := rfl
  balanced h := by cases h
  met h := by cases h
  neighbours a b := rfl

/-- Merging conserves. -/
lemma Conserved.merge {s t : ProfileSet} {ms ms' : List Method} (hs : s.Conserved ms)
    (ht : t.Conserved ms') : (s.merge t).Conserved (ms ++ ms') where
  methods := by rw [ProfileSet.merge, hs.methods, ht.methods, List.length_append]
  instructions := by
    rw [ProfileSet.merge, sumOf_mergeWith fun _ _ => rfl, hs.instructions, ht.instructions]
  entries := by
    rw [ProfileSet.merge, sumOf_mergeWith fun _ _ => rfl, hs.entries, ht.entries,
      List.countP_append]
  exits := by
    rw [ProfileSet.merge, sumOf_mergeWith fun _ _ => rfl, hs.exits, ht.exits, List.countP_append]
  balanced h := Ledger.forall_get?_mergeWith (P := fun _ => Profile.Balanced) (a := s.profiles)
    (b := t.profiles) (fun _ _ _ => .add) (fun _ _ => hs.balanced) (fun _ _ => ht.balanced) _ _ h
  met h := by
    rcases Ledger.get?_mergeWith_cases h with hp | hp | ⟨q, r, hq, hr, rfl⟩
    · exact ⟨(hs.met hp).1, (hs.met hp).2.trans (Nat.le_add_right _ _)⟩
    · exact ⟨(ht.met hp).1, (ht.met hp).2.trans (Nat.le_add_left _ _)⟩
    · exact ⟨(hs.met hq).1.trans (Nat.le_add_right _ _), Nat.add_le_add (hs.met hq).2 (ht.met hr).2⟩
  neighbours a b := by
    have hs := hs.neighbours a b
    have ht := ht.neighbours a b
    rw [follows, precedes] at hs ht ⊢
    rw [ProfileSet.merge, countOf_mergeWith (Profile.additive_count_successors b),
      countOf_mergeWith (Profile.additive_count_predecessors a), hs, ht]

/-- A quantity, summed over the profiles of one method, is summed over its instructions. -/
lemma sumOf_accumulate (hg : Additive g) (m : Method) :
    sumOf g (empty.accumulate m).profiles
      = ((contributions m none [] m.instructions.toList).map g).sum := by
  rw [accumulate, addInstructions_eq_foldl]
  exact sumOf_foldl_addProfile hg _

lemma countOf_accumulate (hg : Additive g) (m : Method) (a : UInt8) :
    countOf g (empty.accumulate m).profiles a
      = ((contributions m none [] m.instructions.toList).map
        fun p => if p.opcode = a then g p else 0).sum := by
  rw [accumulate, addInstructions_eq_foldl]
  exact countOf_foldl_addProfile hg _ a

/-- Every opcode met in a method counts for it once. -/
lemma methods_accumulate {m : Method} {p : Profile} (h : (empty.accumulate m).get? a = some p) :
    p.methods = 1 := by
  have hmem : a ∈ m.instructions.toList.map (·.opcode) := by
    have hkey : a ∈ (empty.accumulate m).profiles.keys :=
      Ledger.mem_keys_iff.mpr (Option.isSome_of_eq_some h)
    rw [accumulate, mem_keys_addInstructions] at hkey
    exact hkey.resolve_left List.not_mem_nil
  have hcount := countOf_accumulate (fun _ _ => rfl : Additive (·.methods)) m a
  rw [sum_methods, if_pos ⟨List.not_mem_nil, hmem⟩, countOf, ← get?, h] at hcount
  exact hcount

/-- Counting one method conserves. -/
lemma conserved_accumulate (m : Method) : (empty.accumulate m).Conserved [m] where
  methods := rfl
  instructions := by
    rw [sumOf_accumulate fun _ _ => rfl, sum_occurrences]
    exact (Nat.zero_add _).symm
  entries := by
    rw [sumOf_accumulate fun _ _ => rfl, sum_methodEntry, List.countP_singleton]
    simp
  exits := by
    rw [sumOf_accumulate fun _ _ => rfl, sum_methodExit, List.countP_singleton]
    simp
  balanced h := by
    rw [get?, accumulate, addInstructions_eq_foldl] at h
    refine forall_get?_foldl_addProfile (P := fun _ => Profile.Balanced) (fun _ _ _ => .add)
      (forall_mem_contributions _ _ _ _ ?_) (fun a p h => ?_) _ _ h
    · exact fun _ _ _ _ => Profile.balanced_ofInstruction ..
    · cases h
  met h := by
    rw [methods_accumulate h]
    exact ⟨Nat.le_refl 1, Nat.le_refl 1⟩
  neighbours a b := by
    rw [follows, precedes, countOf_accumulate (Profile.additive_count_successors b),
      countOf_accumulate (Profile.additive_count_predecessors a), ← sum_neighbours]
    simp

/-- A set that comes of counting and merging, with the methods that went into it. -/
inductive Gathered : ProfileSet → List Method → Prop where
  | empty : Gathered .empty []
  | accumulate {s : ProfileSet} {ms : List Method} (h : Gathered s ms) (m : Method) :
      Gathered (s.accumulate m) (ms ++ [m])
  | merge {s t : ProfileSet} {ms ms' : List Method} (hs : Gathered s ms) (ht : Gathered t ms') :
      Gathered (s.merge t) (ms ++ ms')

/-- Whatever is counted and merged, in whatever order, conserves. -/
lemma Gathered.conserved {s : ProfileSet} {ms : List Method} (h : Gathered s ms) :
    s.Conserved ms := by
  induction h with
  | empty => exact .empty
  | @accumulate s ms h m ih =>
      rw [accumulate_eq_merge]
      exact ih.merge (conserved_accumulate m)
  | merge hs ht ihs iht => exact ihs.merge iht

/-- **The counts of opcodes obey conservation laws**, whatever methods are counted, and in whatever
order sets are merged. The occurrences of all opcodes make up the instructions. The counts of each
opcode are balanced, so the share of occurrences that do not fall through is at most one, and its cap
does not act: as long as the occurrences fit a word, it is the quotient of the counts as doubles. An
opcode has as many successors of another one as that one has predecessors of it, where a count that
is missing is zero. An opcode is counted for one method at least, and for no more than it has
occurrences or there are methods. As many instructions are the first, and as many are the last of a
method, as there are methods that are not empty. -/
theorem counts_conserved {s : ProfileSet} {ms : List Method} (h : Gathered s ms) :
    (s.profiles.values.map (·.occurrences)).sum = s.instructions
    ∧ (∀ a p, s.get? a = some p →
      p.Balanced
      ∧ ((p.methodExit + p.nextLeader : ℕ) : ℚ) / p.occurrences ≤ 1
      ∧ (p.occurrences < 2 ^ 64 → p.noFallthrough
        = (p.methodExit + p.nextLeader).toUInt64.toFloat / p.occurrences.toUInt64.toFloat)
      ∧ (∀ b, p.successors.count b = ((s.get? b).map (·.predecessors.count a)).getD 0)
      ∧ 1 ≤ p.methods ∧ p.methods ≤ min p.occurrences s.methods)
    ∧ s.methods = ms.length
    ∧ (s.profiles.values.map (·.methodEntry)).sum = ms.countP (fun m => !m.instructions.isEmpty)
    ∧ (s.profiles.values.map (·.methodExit)).sum
      = ms.countP (fun m => !m.instructions.isEmpty) := by
  have hs := h.conserved
  refine ⟨hs.instructions, fun a p hp => ?_, hs.methods, hs.entries, hs.exits⟩
  have hbalanced := hs.balanced hp
  have hmet : 0 < p.occurrences := (hs.met hp).1.trans hbalanced.methods
  refine ⟨hbalanced, ?_, fun hlt => ?_, fun b => ?_, (hs.met hp).1,
    le_min hbalanced.methods (hs.met hp).2⟩
  · exact div_le_one_of_le₀ (by exact_mod_cast hbalanced.noFallthrough) (Nat.cast_nonneg _)
  · exact ratio_eq_div hmet hbalanced.noFallthrough hlt
  · have hneighbours := hs.neighbours a b
    rw [follows, countOf, ← get?, hp] at hneighbours
    exact hneighbours

/-- A method without code. -/
def sampleSilent : Method := Method.ofParts ⟨⟨0x06000003⟩, 1⟩ 0 [] []

/-- A set that is merged of two, and one of its three methods is empty. -/
def sampleSet : ProfileSet :=
  (empty.accumulate sampleLoop).merge ((empty.accumulate sampleTwice).accumulate sampleSilent)

theorem counts_conserved_sample :
    Gathered sampleSet [sampleLoop, sampleTwice, sampleSilent]
      ∧ (sampleSet.profiles.values.map (·.occurrences)).sum = 4
      ∧ (sampleSet.profiles.values.map (·.methodEntry)).sum = 2
      ∧ ∃ p, sampleSet.get? 0x01 = some p ∧ p.occurrences = 3
        ∧ p.successors.total + p.methodExit = 3
        ∧ p.noFallthrough = (p.methodExit + p.nextLeader).toUInt64.toFloat / 3
        ∧ p.successors.count 0x30 = ((sampleSet.get? 0x30).map (·.predecessors.count 0x01)).getD 0
        ∧ p.methods ≤ min 3 sampleSet.methods := by
  have hgathered : Gathered sampleSet [sampleLoop, sampleTwice, sampleSilent] :=
    (Gathered.empty.accumulate sampleLoop).merge
      ((Gathered.empty.accumulate sampleTwice).accumulate sampleSilent)
  obtain ⟨hsum, heach, -, hentries, -⟩ := counts_conserved hgathered
  have hthree : (sampleSet.get? 0x01).map (·.occurrences) = some 3 := by decide +kernel
  obtain ⟨p, hp, hoccurrences⟩ := Option.map_eq_some_iff.mp hthree
  obtain ⟨hbalanced, -, hshare, hneighbours, -, hmethods⟩ := heach 0x01 p hp
  rw [hoccurrences] at hshare
  exact ⟨hgathered, hsum, hentries, p, hp, hoccurrences, hoccurrences ▸ hbalanced.successors,
    hshare (by decide), hneighbours 0x30, hoccurrences ▸ hmethods⟩

end ProfileSet

end OpcodeRecovery
