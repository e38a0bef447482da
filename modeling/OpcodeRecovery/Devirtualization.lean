import OpcodeRecovery.Code.Cache
import OpcodeRecovery.Opcode.Mapper
import OpcodeRecovery.Resource.Archive

/-!
Devirtualization: from a resource to the methods in it and the meaning of their opcodes.

A `Devirtualizer` holds an open archive and the methods decoded from it so far.
`Devirtualizer.run` takes a number of keys, reads and decodes the methods one after the other
in ascending order, and maps the opcodes of those that could be decoded. A method that cannot
be read or decoded fails alone; only a breach of the cache ends the run.
-/

namespace OpcodeRecovery

/-! ### Virtual machines -/

/-- The virtual machines that are known. -/
inductive Machine where
  | eziriz
  deriving DecidableEq, Repr

namespace Machine

/-- The name of a machine. -/
def name : Machine → String
  | eziriz => "Eziriz"

/-- The machine of a name, or why there is none. -/
def ofName (s : String) : Except String Machine :=
  if s = eziriz.name then .ok eziriz else .error "Matching variant not found"

end Machine

/-- How a program is recognised as virtualized. -/
inductive Matcher where
  /-- The magic number of a resource stands somewhere in it. -/
  | magic
  /-- Not at all. -/
  | never
  deriving DecidableEq, Repr

/-- Whether a byte string occurs in another. -/
def occursIn (needle : Bytes) : Bytes → Bool
  | [] => needle.isEmpty
  | b :: rest => needle.isPrefixOf (b :: rest) || occursIn needle rest

/-- Whether a program is recognised. -/
def Matcher.accepts : Matcher → Bytes → Bool
  | .magic, program => occursIn Resource.magic program
  | .never, _ => false

/-! ### Runs -/

/-- The settings of a run. -/
structure RunConfig where
  /-- How many threads to use; zero leaves it open. -/
  threads : Nat
  /-- Whether each method is decoded once more and compared. -/
  verify : Bool
  mapping : MappingConfig

namespace RunConfig

/-- The usual settings. -/
def default : RunConfig := ⟨0, false, .default⟩

/-- With verification and higher demands. -/
def strict : RunConfig := ⟨0, true, .strict⟩

/-- With lower demands. -/
def lenient : RunConfig := ⟨0, false, .lenient⟩

/-- The settings of a name; other names stand for the usual ones. -/
def ofName (s : String) : RunConfig :=
  if s = "strict" then strict else if s = "lenient" then lenient else default

/-- The threads a run is said to use: one if it is left open. -/
def threadCount (c : RunConfig) : Nat := max 1 c.threads

end RunConfig

/-- What a run found. -/
structure Report where
  /-- The methods that could be decoded, by ascending key. -/
  methods : List Method
  /-- The failures of the others in words, by ascending key. -/
  failures : List (MethodKey × String)
  mapping : Mapping

namespace Report

/-- The method of a key. -/
def method? (r : Report) (key : MethodKey) : Option Method :=
  let ms := r.methods.toArray
  (bisect (fun m => rank m.key) ms (rank key)).bind fun i => ms[i]?

/-- Whether nothing failed and every opcode is resolved. -/
def isComplete (r : Report) : Bool := r.failures.isEmpty && r.mapping.isComplete

end Report

/-- An open archive with what was decoded from it. -/
structure Devirtualizer where
  archive : Archive
  cache : Cache
  mapper : Mapper
  config : RunConfig
  matcher : Matcher

/-- What became of one method. -/
inductive Fate where
  /-- It was decoded, from so many bytes. -/
  | decoded (method : Method) (bytes : Nat)
  /-- It could not be read, or not be decoded from so many bytes. -/
  | failed (key : MethodKey) (bytes : Option Nat) (text : String)

namespace Fate

/-- The failure of a method, told by an error. A failure that was kept is told in its own
words. -/
def ofError (key : MethodKey) (bytes : Option Nat) : Error → Fate
  | .methodFailed _ text => .failed key bytes text
  | e => .failed key bytes e.message

/-- The events that tell of a method. -/
def events : Fate → List Progress.Event
  | decoded m bytes => [.extracted m.key bytes, .disassembled m.key m.instructions.size]
  | failed key bytes text =>
    (bytes.map fun n => Progress.Event.extracted key n).toList ++ [.failed key text]

/-- The method, if it was decoded. -/
def method? : Fate → Option Method
  | decoded m _ => some m
  | failed .. => none

/-- The failure, if it was not. -/
def failure? : Fate → Option (MethodKey × String)
  | decoded .. => none
  | failed key _ text => some (key, text)

end Fate

namespace Devirtualizer

/-- Opens a resource. The opcodes that the table declares are expected to exist. -/
def ofResource (resource : Resource) (table : ShapeTable) (config : RunConfig) :
    Except Error Devirtualizer := do
  let archive ← Archive.ofResource resource
  return {
    archive
    cache := Cache.empty table
    mapper := Mapper.ofConfig .cil config.mapping table.opcodes
    config
    matcher := .magic }

/-- The same with other signatures and the structural score. -/
def withSignatures (d : Devirtualizer) (signatures : SignatureTable) : Devirtualizer :=
  { d with mapper := Mapper.ofConfig signatures d.config.mapping d.cache.table.opcodes }

/-- The same with another score. -/
def withScorer (d : Devirtualizer) (scorer : Scorer) : Devirtualizer :=
  { d with mapper := d.mapper.withScorer scorer }

/-- The machine whose programs are devirtualized. -/
def machine (_ : Devirtualizer) : Machine := .eziriz

/-- Reads and decodes one method. Only a breach of the cache is an error. -/
def process (archive : Archive) (verify : Bool) (cache : Cache) (key : MethodKey) :
    Cache × Except Error Fate × List Log.Record :=
  match archive.extract key with
  | .error e => (cache, if e.isFatal then .error e else .ok (.ofError key none e), [])
  | .ok stream =>
    let (cache, reply) := cache.request key stream
    let result :=
      match reply.result with
      | .ok m =>
        if verify then (cache.verify key stream).map fun _ => .decoded m stream.data.length
        else .ok (.decoded m stream.data.length)
      | .error e =>
        if e.isFatal then .error e else .ok (.ofError key (some stream.data.length) e)
    (cache, result, reply.log)

/-- Reads and decodes methods one after the other, up to the first breach. -/
def processAll (archive : Archive) (verify : Bool) :
    Cache → List MethodKey → Cache × Except Error (List Fate) × List Log.Record
  | cache, [] => (cache, .ok [], [])
  | cache, key :: rest =>
    let (cache, result, log) := process archive verify cache key
    match result with
    | .error e => (cache, .error e, log)
    | .ok fate =>
      let (cache, fates, more) := processAll archive verify cache rest
      (cache, fates.map (fate :: ·), log ++ more)

/-- What is logged when a run starts. -/
def startRecord (count threads : Nat) : Log.Record :=
  ⟨.info, s!"devirtualizing {count} methods on {threads} threads"⟩

/-- What is logged when a run ends. -/
def finishRecord (r : Report) : Log.Record :=
  ⟨.info, s!"devirtualized {r.methods.length} methods, {r.failures.length} failed, "
    ++ s!"{r.mapping.resolvedCount} of {r.mapping.size} opcodes resolved"⟩

/-- What a run comes to: its report or the breach that ended it, what was told on the way,
and the state to go on with. -/
structure Outcome where
  result : Except Error Report
  notices : List Progress.Notice
  next : Devirtualizer

/-- Devirtualizes the methods of some keys; order and repetition do not matter. -/
def run (d : Devirtualizer) (keys : List MethodKey) : Outcome :=
  let keys := Ledger.distinct keys
  let (cache, result, log) := processAll d.archive d.config.verify d.cache keys
  let next := { d with cache }
  let opening : List Progress.Notice :=
    .record (startRecord keys.length d.config.threadCount) :: log.map .record
  match result with
  | .error e => ⟨.error e, opening, next⟩
  | .ok fates =>
    let methods := fates.filterMap (·.method?)
    let (mapping, told) := d.mapper.map methods
    let report : Report := ⟨methods, fates.filterMap (·.failure?), mapping⟩
    let events := (fates.flatMap (·.events)).map Progress.Notice.event
    ⟨.ok report, opening ++ events ++ told ++ [.record (finishRecord report)], next⟩

/-- Devirtualizes all methods of the archive. -/
def runAll (d : Devirtualizer) : Outcome := d.run d.archive.keys

end Devirtualizer

end OpcodeRecovery
