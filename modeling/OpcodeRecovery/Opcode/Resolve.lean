import OpcodeRecovery.Log
import OpcodeRecovery.Opcode.Ranking

/-!
Resolving opcodes: which opcode stands for which instruction.

Opcodes that were met often enough are pending, each with its ranking. In every round
(`Contest.round`) each pending opcode has a standing against the signatures still available:

* nothing is left, or the best that is left scores too low: the opcode is dismissed;
* the second best is too close: the opcode waits;
* else the opcode is ready.

The ready opcode with the highest score, the lowest opcode among several, takes its best
signature. If the signature is unique it is gone then; and if other pending opcodes want it
about as much, nobody gets it and all of them are in conflict. Rounds go on until no opcode is
ready. What is pending then is ambiguous.

Every round that goes on decides at least one pending opcode (`Contest.pending_assign_lt`),
so the contest ends.
-/

namespace OpcodeRecovery

/-- What it takes to name an instruction. -/
structure MappingConfig where
  /-- The least score. -/
  threshold : Float
  /-- The least lead over the next best. -/
  tieMargin : Float
  /-- The least number of occurrences. -/
  minOccurrences : Nat
  /-- The weights of the structural score. -/
  weights : Weights

namespace MappingConfig

/-- The usual demands. -/
def default : MappingConfig := ⟨0.8, 0.02, 1, .default⟩

/-- Higher demands. -/
def strict : MappingConfig := ⟨0.9, 0.05, 3, .default⟩

/-- Lower demands. -/
def lenient : MappingConfig := ⟨0.6, 0.01, 1, .default⟩

/-- The demands of a name; other names stand for the usual ones. -/
def ofName (s : String) : MappingConfig :=
  if s = "strict" then strict else if s = "lenient" then lenient else default

end MappingConfig

/-- A pending opcode with its ranking. -/
structure Contender where
  opcode : UInt8
  ranking : Ranking

/-- How a contender stands in a round. -/
inductive Standing where
  /-- It is out, with the best that is left if there is one. -/
  | dismissed (best : Option Scored)
  /-- The next best signature is too close to the best. -/
  | waiting
  /-- It may take its best signature. -/
  | ready (best : Scored)

/-- The standing of a ranking when some signatures are taken. -/
def Standing.of (config : MappingConfig) (taken : List Nat) (r : Ranking) : Standing :=
  match r.available taken with
  | [] => .dismissed none
  | best :: others =>
    if best.score < config.threshold then .dismissed (some best)
    else
      match others with
      | [] => .ready best
      | next :: _ => if best.score - next.score < config.tieMargin then .waiting else .ready best

/-- A contest for signatures. -/
structure Contest where
  /-- The opcodes to be decided, ascending. -/
  pending : List Contender
  /-- The places of the unique signatures that are gone. -/
  taken : List Nat
  /-- The verdicts reached. -/
  verdicts : Ledger UInt8 Verdict
  /-- The mnemonics that were fought over, with the number of opcodes, in order. -/
  contested : List (String × Nat)

namespace Contest

/-! ### One round -/

/-- The standing of a contender in this round. -/
def standing (config : MappingConfig) (c : Contest) (x : Contender) : Standing :=
  .of config c.taken x.ranking

/-- Whether a contender stays for this round. -/
def stays (config : MappingConfig) (c : Contest) (x : Contender) : Bool :=
  match c.standing config x with
  | .dismissed _ => false
  | _ => true

/-- Writes down the verdict on a contender that is out. -/
def noteDismissal (config : MappingConfig) (c : Contest) (verdicts : Ledger UInt8 Verdict)
    (x : Contender) : Ledger UInt8 Verdict :=
  match c.standing config x with
  | .dismissed best => verdicts.insert x.opcode (.lowConfidence (best.map (·.candidate)))
  | _ => verdicts

/-- Dismisses the contenders that are out. -/
def dismiss (config : MappingConfig) (c : Contest) : Contest :=
  { c with
    pending := c.pending.filter (c.stays config)
    verdicts := c.pending.foldl (c.noteDismissal config) c.verdicts }

/-- The better of the leader so far and a contender, if that is ready. -/
def lead (config : MappingConfig) (c : Contest) (leader : Option (Contender × Scored))
    (x : Contender) : Option (Contender × Scored) :=
  match c.standing config x with
  | .ready best =>
    match leader with
    | some (y, current) => if best.score > current.score then some (x, best) else some (y, current)
    | none => some (x, best)
  | _ => leader

/-- The ready contender with the highest score, the first one among several. -/
def leader? (config : MappingConfig) (c : Contest) : Option (Contender × Scored) :=
  c.pending.foldl (c.lead config) none

/-- Whether a contender wants a signature about as much as the leader: it is the best one
left to it, and its score is not behind by the margin. -/
def isRival (config : MappingConfig) (c : Contest) (best : Scored) (x : Contender) : Bool :=
  match (x.ranking.available c.taken).head? with
  | some s => s.index == best.index && decide (best.score - s.score < config.tieMargin)
  | none => false

/-- The opcodes that want the leader's signature: the leader's own, and those of the
contenders that want it about as much. -/
def claimants (config : MappingConfig) (c : Contest) (leader : Contender) (best : Scored) :
    List UInt8 :=
  (c.pending.filter fun x => x.opcode == leader.opcode || c.isRival config best x).map
    (·.opcode)

/-- Ends the contest for some opcodes, all with one verdict. -/
def conclude (c : Contest) (opcodes : List UInt8) (v : Verdict) : Contest :=
  { c with
    pending := c.pending.filter fun x => !opcodes.contains x.opcode
    verdicts := opcodes.foldl (fun l o => l.insert o v) c.verdicts }

/-- Gives the leader its signature; nobody gets it if it is unique and there is another
claimant. -/
def assign (config : MappingConfig) (c : Contest) (leader : Contender) (best : Scored) :
    Contest :=
  if best.signature.unique then
    let group := c.claimants config leader best
    let c := { c with taken := best.index :: c.taken }
    if group.length ≤ 1 then c.conclude [leader.opcode] (.resolved best.candidate)
    else
      let name := best.signature.mnemonic
      { c.conclude group (.conflict name group) with
        contested := c.contested ++ [(name, group.length)] }
  else c.conclude [leader.opcode] (.resolved best.candidate)

/-! ### The whole contest -/

/-- The leader is pending and ready. -/
theorem leader?_spec {config : MappingConfig} {c : Contest} {x : Contender} {best : Scored}
    (h : c.leader? config = some (x, best)) :
    x ∈ c.pending ∧ c.standing config x = .ready best := by
  have key : ∀ (xs : List Contender) (init : Option (Contender × Scored)),
      (∀ y s, init = some (y, s) → y ∈ c.pending ∧ c.standing config y = .ready s) →
      (∀ y ∈ xs, y ∈ c.pending) →
      ∀ y s, xs.foldl (c.lead config) init = some (y, s) →
        y ∈ c.pending ∧ c.standing config y = .ready s := by
    intro xs
    induction xs with
    | nil => intro init hinit _; exact hinit
    | cons z zs ih =>
      intro init hinit hmem
      refine ih (c.lead config init z) ?_ fun w hw => hmem w (List.mem_cons_of_mem _ hw)
      intro y s hy
      -- the new leader is the contender just looked at, or the old leader
      have hz : z ∈ c.pending := hmem z List.mem_cons_self
      unfold lead at hy
      split at hy
      · rename_i hready
        split at hy
        · split at hy
          · cases hy; exact ⟨hz, hready⟩
          · exact hinit y s hy
        · cases hy; exact ⟨hz, hready⟩
      · exact hinit y s hy
  exact key c.pending none (fun _ _ h => by cases h) (fun _ h => h) x best h

/-- Ending the contest for an opcode that is pending leaves fewer pending. -/
theorem pending_conclude_lt {c : Contest} {x : Contender} {opcodes : List UInt8}
    (v : Verdict) (hx : x ∈ c.pending) (ho : x.opcode ∈ opcodes) :
    (c.conclude opcodes v).pending.length < c.pending.length := by
  refine List.length_filter_lt_length_iff_exists.2 ⟨x, hx, ?_⟩
  simp [ho]

/-- Each assignment decides at least one pending opcode. -/
theorem pending_assign_lt {config : MappingConfig} {c : Contest} {x : Contender} {best : Scored}
    (hx : x ∈ c.pending) : (c.assign config x best).pending.length < c.pending.length := by
  unfold assign
  split
  · simp only
    split
    · exact pending_conclude_lt (c := { c with taken := best.index :: c.taken }) _ hx
        (List.mem_singleton.2 rfl)
    · refine pending_conclude_lt (c := { c with taken := best.index :: c.taken })
        (.conflict best.signature.mnemonic (c.claimants config x best)) hx ?_
      exact List.mem_map.2 ⟨x, List.mem_filter.2 ⟨hx, by simp⟩, rfl⟩
  · exact pending_conclude_lt _ hx (List.mem_singleton.2 rfl)

/-- Dismissing makes no opcode pending. -/
theorem pending_dismiss_le (config : MappingConfig) (c : Contest) :
    (c.dismiss config).pending.length ≤ c.pending.length :=
  List.length_filter_le _ _

/-- Rounds until no contender is ready. -/
def run (config : MappingConfig) (c : Contest) : Contest :=
  let d := c.dismiss config
  match _h : d.leader? config with
  | none => d
  | some (x, best) => run config (d.assign config x best)
termination_by c.pending.length
decreasing_by
  exact Nat.lt_of_lt_of_le (pending_assign_lt (leader?_spec _h).1) (pending_dismiss_le config c)

/-- The signatures between which a contender cannot decide: those within the margin of the
best that is left. -/
def tied (config : MappingConfig) (taken : List Nat) (r : Ranking) : List Candidate :=
  let left := r.available taken
  let top := (left.head?.map (·.score)).getD 0.0
  (left.takeWhile fun s => decide (top - s.score < config.tieMargin)).map (·.candidate)

/-- Ends the contest: what is pending is ambiguous. -/
def finish (config : MappingConfig) (c : Contest) : Ledger UInt8 Verdict :=
  c.pending.foldl
    (fun l x => l.insert x.opcode (.ambiguous (tied config c.taken x.ranking))) c.verdicts

end Contest

/-! ### Resolving a set of profiles -/

/-- What resolving needs beside the profiles. -/
structure Resolver where
  signatures : SignatureTable
  scorer : Scorer
  config : MappingConfig

namespace Resolver

/-- The profile of an opcode, if there are enough occurrences of it. -/
def evidence? (r : Resolver) (profiles : ProfileSet) (opcode : UInt8) : Option Profile :=
  (profiles.get? opcode).filter fun p =>
    decide (0 < p.occurrences) && decide (r.config.minOccurrences ≤ p.occurrences)

/-- The opcodes to be decided: those met and those known beforehand, ascending. -/
def opcodes (profiles : ProfileSet) (known : List UInt8) : List UInt8 :=
  Ledger.distinct (profiles.opcodes ++ known)

/-- Opcodes with enough evidence are contenders; on the others there is a verdict. -/
def start (r : Resolver) (profiles : ProfileSet) (known : List UInt8) : Contest :=
  let all := opcodes profiles known
  { pending := all.filterMap fun o =>
      (r.evidence? profiles o).map fun p =>
        ⟨o, Ranking.ofFeatures r.signatures r.scorer (Features.ofProfile profiles p)⟩
    taken := []
    verdicts := all.foldl
      (fun l o =>
        if (r.evidence? profiles o).isSome then l
        else l.insert o (.noEvidence (((profiles.get? o).map (·.occurrences)).getD 0)))
      .empty
    contested := [] }

/-- A mapping, and what is logged while it is found. -/
structure Resolution where
  mapping : Mapping
  log : List Log.Record

/-- What is logged when a signature is fought over. -/
def contestedRecord (name : String) (count : Nat) : Log.Record :=
  ⟨.debug, name ++ s!" contested by {count} opcodes, leaving all unresolved"⟩

/-- Decides which opcode stands for which instruction. -/
def resolve (r : Resolver) (profiles : ProfileSet) (known : List UInt8) : Resolution :=
  let c := (r.start profiles known).run r.config
  { mapping := ⟨r.signatures.version, c.finish r.config⟩
    log := c.contested.map fun e => contestedRecord e.1 e.2 }

end Resolver

end OpcodeRecovery
