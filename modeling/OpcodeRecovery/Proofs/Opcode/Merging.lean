import Mathlib.Tactic
import OpcodeRecovery.Opcode.Profile
import OpcodeRecovery.Proofs.Ledger

/-!
Profiles do not depend on the order in which methods are counted, nor on how they are divided.

* `Profile.ofInstruction` is what a single instruction contributes. Raising the counters of a profile
  by an instruction is adding that (`Profile.countInstruction_eq_add`), so a method is counted by
  adding what its instructions contribute (`ProfileSet.addInstructions_cons`).
* `Profile.add` is associative, and commutative on profiles of one opcode. `ProfileSet.merge`
  inherits both laws, the second one on sets that keep each profile under its own opcode
  (`ProfileSet.Keyed`), and the empty set is its identity.
* `ProfileSet.accumulate_eq_merge`: counting a method is merging with the set of that method
  alone. What `accumulate` remembers on its way through a method, the opcodes met so far and
  the last instruction, does not reach beyond the method.
* `ProfileSet.Plan` is a way of dividing the work: parts whose methods are counted one after the
  other, merged in pairs. `ProfileSet.plan_independence` says that all plans for the same methods
  come to the same set.
-/

namespace OpcodeRecovery

/-! ### Adding profiles -/

namespace Profile

instance : Std.Associative add where
  assoc p q r := by simp only [add, Nat.add_assoc, Ledger.mergeWith_assoc]

/-- Profiles of one opcode can be added in either order. -/
lemma add_comm_of_opcode_eq {p q : Profile} (h : p.opcode = q.opcode) : p.add q = q.add p := by
  simp only [add, h, Nat.add_comm, Ledger.mergeWith_comm]

/-! ### What an instruction contributes -/

/-- One if a condition holds. -/
def tick (b : Bool) : ℕ := if b then 1 else 0

/-- The ledger that counts a key once, if there is one. -/
def single {κ : Type} [Ranked κ] : Option κ → Ledger κ ℕ
  | some k => Ledger.empty.add k 1
  | none => .empty

/-- What an instruction contributes to the profile of its opcode: its neighbours are given, and
whether its opcode stands in the method for the first time. -/
def ofInstruction (m : Method) (previous : Option Instruction) (i : Instruction)
    (following : Option Instruction) (first : Bool) : Profile :=
  { opcode := i.opcode
    occurrences := 1
    methods := tick first
    shapes := single (some i.shape)
    methodEntry := tick previous.isNone
    methodExit := tick following.isNone
    nextLeader := tick (following.any fun n => m.isLeader n.offset)
    branchTarget := tick (m.isLeader i.offset && previous.isSome)
    inTry := tick (m.inTry i.offset)
    inHandler := tick (m.inHandler i.offset)
    exitsRegion := tick (i.targets.any (m.leavesRegion i.offset))
    emptyStack := tick (m.isEmptyStackPoint i.offset)
    successors := single (following.map (·.opcode))
    predecessors := single (previous.map (·.opcode)) }

lemma raise_eq_add_tick (n : ℕ) (b : Bool) : raise n b = n + tick b := by
  cases b <;> rfl

/-- Counting a key once more is adding the ledger that counts it once. -/
lemma add_one_eq_mergeWith {κ : Type} [Ranked κ] (l : Ledger κ ℕ) (k : κ) :
    l.add k 1 = l.mergeWith (· + ·) (single (some k)) := by
  refine congrArg (l.upsert k) (funext fun old => ?_)
  cases old <;> rfl

lemma countNeighbour_eq_mergeWith (l : Ledger UInt8 ℕ) (o : Option Instruction) :
    countNeighbour l o = l.mergeWith (· + ·) (single (o.map (·.opcode))) := by
  cases o with
  | none => rfl
  | some n => exact add_one_eq_mergeWith l n.opcode

section Occurrence

variable (m : Method) (previous : Option Instruction) (i : Instruction)
  (following : Option Instruction) (first : Bool)

/-- Raising the counters by an instruction is adding what it contributes. -/
lemma countInstruction_eq_add (p : Profile) :
    p.countInstruction m previous i following first
      = p.add (ofInstruction m previous i following first) := by
  simp only [countInstruction, add, ofInstruction, raise_eq_add_tick, add_one_eq_mergeWith,
    countNeighbour_eq_mergeWith]

/-- The counters of an opcode that was not met, raised by an instruction, are what it contributes. -/
lemma countInstruction_ofOpcode :
    (ofOpcode i.opcode).countInstruction m previous i following first
      = ofInstruction m previous i following first := by
  rw [countInstruction_eq_add]
  simp only [ofOpcode, add, ofInstruction, Nat.zero_add, Ledger.empty_mergeWith]

end Occurrence

end Profile

namespace ProfileSet

/-! ### The laws of merging -/

/-- Merging may be bracketed in any way. -/
lemma merge_assoc (s t u : ProfileSet) : (s.merge t).merge u = s.merge (t.merge u) := by
  simp only [merge, Nat.add_assoc, Ledger.mergeWith_assoc]

@[simp] lemma merge_empty (s : ProfileSet) : s.merge empty = s := rfl

@[simp] lemma empty_merge (s : ProfileSet) : empty.merge s = s := by
  simp only [merge, empty, Ledger.empty_mergeWith, Nat.zero_add]

/-- Every profile stands under its own opcode. -/
def Keyed (profiles : Ledger UInt8 Profile) : Prop :=
  ∀ o p, profiles.get? o = some p → p.opcode = o

/-- Sets that keep each profile under its own opcode can be merged in either order. -/
lemma merge_comm {s t : ProfileSet} (hs : Keyed s.profiles) (ht : Keyed t.profiles) :
    s.merge t = t.merge s := by
  have hprofiles : s.profiles.mergeWith Profile.add t.profiles
      = t.profiles.mergeWith Profile.add s.profiles := by
    refine Ledger.mergeWith_comm_of fun o p q hp hq => Profile.add_comm_of_opcode_eq ?_
    rw [hs o p hp, ht o q hq]
  simp only [merge, hprofiles, Nat.add_comm]

/-! ### Counting one method -/

/-- The ledger of one profile. -/
def lone (p : Profile) : Ledger UInt8 Profile := ⟨[(p.opcode, p)], List.pairwise_singleton _ _⟩

lemma get?_lone (p : Profile) (a : UInt8) :
    (lone p).get? a = if p.opcode = a then some p else none := by
  rw [lone, Ledger.get?_mk_cons]
  exact if_congr ⟨Ranked.rank_injective _ _, congrArg rank⟩ rfl rfl

/-- A profile is added as the ledger that holds nothing else. -/
lemma addProfile_eq_mergeWith (l : Ledger UInt8 Profile) (p : Profile) :
    addProfile l p = l.mergeWith Profile.add (lone p) := by
  refine congrArg (l.upsert p.opcode) (funext fun old => ?_)
  cases old <;> rfl

/-- An instruction is counted by adding what it contributes to the profile of its opcode. -/
lemma addInstructions_cons (m : Method) (previous : Option Instruction) (seen : List UInt8)
    (i : Instruction) (is : List Instruction) (l : Ledger UInt8 Profile) :
    addInstructions m previous seen (i :: is) l
      = addInstructions m (some i) (if !seen.contains i.opcode then i.opcode :: seen else seen) is
        (addProfile l (.ofInstruction m previous i is.head? (!seen.contains i.opcode))) := by
  rw [addInstructions]
  refine congrArg (addInstructions m _ _ is) ?_
  refine congrArg (l.upsert i.opcode) (funext fun old => ?_)
  cases old with
  | none => exact Profile.countInstruction_ofOpcode ..
  | some p => exact Profile.countInstruction_eq_add ..

/-- Instructions are counted apart from what was counted before them. -/
lemma addInstructions_eq_mergeWith (m : Method) (previous : Option Instruction)
    (seen : List UInt8) (is : List Instruction) (l : Ledger UInt8 Profile) :
    addInstructions m previous seen is l
      = l.mergeWith Profile.add (addInstructions m previous seen is .empty) := by
  induction is generalizing previous seen l with
  | nil => rfl
  | cons i is ih =>
      rw [addInstructions_cons, ih, addInstructions_cons, ih _ _ (addProfile .empty _)]
      simp only [addProfile_eq_mergeWith, Ledger.empty_mergeWith, Ledger.mergeWith_assoc]

/-- Counting a method is merging with the set of that method alone. -/
lemma accumulate_eq_merge (s : ProfileSet) (m : Method) :
    s.accumulate m = s.merge (empty.accumulate m) := by
  simp only [accumulate, merge, empty, Nat.zero_add]
  rw [addInstructions_eq_mergeWith]

lemma keyed_mergeWith {a b : Ledger UInt8 Profile} (ha : Keyed a) (hb : Keyed b) :
    Keyed (a.mergeWith Profile.add b) :=
  -- a sum has the opcode of its first part
  Ledger.forall_get?_mergeWith (fun _ _ _ hp _ => hp) ha hb

lemma keyed_lone (p : Profile) : Keyed (lone p) := by
  intro o q hq
  rw [get?_lone, Option.ite_none_right_eq_some] at hq
  obtain ⟨hopcode, hq⟩ := hq
  exact Option.some.inj hq ▸ hopcode

/-- Instructions are counted under their own opcodes. -/
lemma keyed_addInstructions (m : Method) (previous : Option Instruction) (seen : List UInt8)
    (is : List Instruction) {l : Ledger UInt8 Profile} (h : Keyed l) :
    Keyed (addInstructions m previous seen is l) := by
  induction is generalizing previous seen l with
  | nil => exact h
  | cons i is ih =>
      rw [addInstructions_cons, addProfile_eq_mergeWith]
      exact ih _ _ (keyed_mergeWith h (keyed_lone _))

/-- The order in which two methods are counted does not matter. -/
lemma accumulate_right_comm (s : ProfileSet) (m m' : Method) :
    (s.accumulate m).accumulate m' = (s.accumulate m').accumulate m := by
  have hkeyed : ∀ m : Method, Keyed (empty.accumulate m).profiles :=
    fun m => keyed_addInstructions m none [] _ fun _ _ h => by cases h
  calc (s.accumulate m).accumulate m'
      = s.merge ((empty.accumulate m).merge (empty.accumulate m')) := by
        rw [accumulate_eq_merge (s.accumulate m), accumulate_eq_merge s, merge_assoc]
    _ = s.merge ((empty.accumulate m').merge (empty.accumulate m)) := by
        rw [merge_comm (hkeyed m) (hkeyed m')]
    _ = (s.accumulate m').accumulate m := by
        rw [accumulate_eq_merge (s.accumulate m'), accumulate_eq_merge s, merge_assoc]

/-! ### Counting many methods -/

/-- Methods are counted apart from what was counted before them. -/
lemma foldl_accumulate (s : ProfileSet) (ms : List Method) :
    ms.foldl accumulate s = s.merge (ofMethods ms) := by
  induction ms generalizing s with
  | nil => rfl
  | cons m ms ih =>
      rw [List.foldl_cons, ih, accumulate_eq_merge, merge_assoc, ← ih]
      rfl

lemma ofMethods_append (ms ms' : List Method) :
    ofMethods (ms ++ ms') = (ofMethods ms).merge (ofMethods ms') := by
  rw [ofMethods, List.foldl_append, foldl_accumulate]
  rfl

lemma ofMethods_eq_of_perm {ms ms' : List Method} (h : ms.Perm ms') :
    ofMethods ms = ofMethods ms' :=
  h.foldl_eq' (fun m _ m' _ s => accumulate_right_comm s m m') empty

/-! ### Opcodes met -/

lemma mem_keys_addInstructions (m : Method) (previous : Option Instruction) (seen : List UInt8)
    (is : List Instruction) (l : Ledger UInt8 Profile) {o : UInt8} :
    o ∈ (addInstructions m previous seen is l).keys ↔ o ∈ l.keys ∨ o ∈ is.map (·.opcode) := by
  induction is generalizing previous seen l with
  | nil => simp [addInstructions]
  | cons i is ih =>
      rw [addInstructions_cons, ih, addProfile, Ledger.mem_keys_upsert, List.map_cons, List.mem_cons,
        Profile.ofInstruction]
      tauto

/-- The opcodes of some methods are those of their instructions. -/
lemma mem_opcodes_ofMethods (ms : List Method) {o : UInt8} :
    o ∈ (ofMethods ms).opcodes ↔ ∃ m ∈ ms, ∃ i ∈ m.instructions.toList, i.opcode = o := by
  induction ms using List.reverseRecOn with
  | nil => simp [ofMethods, opcodes, empty, Ledger.keys, Ledger.empty]
  | append_singleton ms m ih =>
      have hstep : ofMethods (ms ++ [m]) = (ofMethods ms).accumulate m := List.foldl_append
      rw [opcodes] at ih
      rw [hstep, opcodes, accumulate, mem_keys_addInstructions, ih]
      simp [or_and_right, exists_or]

/-! ### Plans -/

/-- A way of dividing the work: a part is counted one method after the other, and the sets of
two parts are merged. -/
inductive Plan where
  | part (ms : List Method)
  | join (left right : Plan)

namespace Plan

/-- The methods of a plan, in the order of its parts. -/
def methods : Plan → List Method
  | part ms => ms
  | join left right => left.methods ++ right.methods

/-- What a plan comes to. -/
def profiles : Plan → ProfileSet
  | part ms => ofMethods ms
  | join left right => left.profiles.merge right.profiles

/-- However the work is divided, it comes to what counting in sequence does. -/
lemma profiles_eq_ofMethods (plan : Plan) : plan.profiles = ofMethods plan.methods := by
  induction plan with
  | part ms => rfl
  | join left right ihl ihr => rw [profiles, methods, ihl, ihr, ofMethods_append]

end Plan

/-- **Counting is independent of order and division.** Whatever the order of the methods, and
however they are cut into parts and the parts merged, the result is that of counting them in
sequence. For `merge` is associative, has the empty set as identity, and is commutative on sets
that keep each profile under its own opcode; and counting a method is merging with its set. -/
theorem plan_independence :
    (∀ (ms : List Method) (plan : Plan), plan.methods.Perm ms → plan.profiles = ofMethods ms)
    ∧ (∀ s t u : ProfileSet, (s.merge t).merge u = s.merge (t.merge u))
    ∧ (∀ s t : ProfileSet, Keyed s.profiles → Keyed t.profiles → s.merge t = t.merge s)
    ∧ (∀ s : ProfileSet, s.merge empty = s ∧ empty.merge s = s)
    ∧ ∀ (s : ProfileSet) (m : Method), s.accumulate m = s.merge (empty.accumulate m) := by
  refine ⟨fun ms plan h => ?_, merge_assoc, fun s t => merge_comm,
    fun s => ⟨merge_empty s, empty_merge s⟩, accumulate_eq_merge⟩
  rw [plan.profiles_eq_ofMethods, ofMethods_eq_of_perm h]

/-- A method that loops: the second instruction branches back to the first. -/
def sampleLoop : Method :=
  Method.ofParts ⟨⟨0x06000001⟩, 1⟩ 6
    [⟨0, 1, 0x01, .none, .declared⟩, ⟨1, 5, 0x30, .branch 0, .declared⟩] []

/-- A method with one instruction twice. -/
def sampleTwice : Method :=
  Method.ofParts ⟨⟨0x06000002⟩, 1⟩ 2
    [⟨0, 1, 0x01, .none, .declared⟩, ⟨1, 1, 0x01, .none, .declared⟩] []

theorem plan_independence_sample :
    (Plan.join (.part [sampleTwice]) (.join (.part []) (.part [sampleLoop]))).methods.Perm
        [sampleLoop, sampleTwice]
      ∧ (Plan.join (.part [sampleTwice]) (.join (.part []) (.part [sampleLoop]))).profiles
        = ofMethods [sampleLoop, sampleTwice]
      ∧ Keyed (ofMethods [sampleLoop]).profiles ∧ Keyed (ofMethods [sampleTwice]).profiles
      ∧ (ofMethods [sampleLoop]).merge (ofMethods [sampleTwice])
        = (ofMethods [sampleTwice]).merge (ofMethods [sampleLoop]) := by
  have hperm : [sampleTwice, sampleLoop].Perm [sampleLoop, sampleTwice] := .swap _ _ _
  have hloop : Keyed (ofMethods [sampleLoop]).profiles :=
    keyed_addInstructions _ _ _ _ fun _ _ h => by cases h
  have htwice : Keyed (ofMethods [sampleTwice]).profiles :=
    keyed_addInstructions _ _ _ _ fun _ _ h => by cases h
  exact ⟨hperm, plan_independence.1 _ _ hperm, hloop, htwice,
    plan_independence.2.2.1 _ _ hloop htwice⟩

end ProfileSet

end OpcodeRecovery
