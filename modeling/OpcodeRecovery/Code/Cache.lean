import OpcodeRecovery.Bytes.Sha1
import OpcodeRecovery.Code.Decode
import OpcodeRecovery.Log

/-!
The method cache: every method is decoded once, and its result, good or bad, is kept.

A request for a method goes through three steps, each of which looks at the cache once.

1. `Cache.enroll` makes a slot for the key if there is none, marked with the fingerprint of
   the stream that was handed in, and returns the slot.
2. `Slot.accepts` compares the slot's fingerprint with that of the stream. A request with
   other bytes is refused: the same method cannot have two streams.
3. `Cache.settle` decodes the stream if the slot is still open, and reads the slot's result
   if it is not.

`Cache.request` takes them one after the other. The first request for a method that cannot
be decoded gets the error itself; later ones are told that the method failed, in the words
of that error. `Cache.verify` decodes once more and compares.
-/

namespace OpcodeRecovery

/-- What decoding a method came to: the method, or the words of the error. -/
abbrev Outcome := Except String Method

/-- What is kept for a key. -/
structure Slot where
  /-- The fingerprint of the stream that was handed in first. -/
  fingerprint : Bytes
  /-- The result, once there is one. -/
  outcome : Option Outcome

/-- The methods decoded so far. -/
structure Cache where
  table : ShapeTable
  slots : Ledger MethodKey Slot
  /-- The words of the failures, kept a second time beside the slots. -/
  failed : Ledger MethodKey String
  /-- The shapes inferred in all methods that were decoded. -/
  votes : ShapeVotes
  /-- How many streams were decoded, with or without success. -/
  decodes : Nat

namespace Slot

/-- The method of a slot. -/
def method? (s : Slot) : Option Method :=
  match s.outcome with
  | some (.ok m) => some m
  | _ => none

/-- Whether a fingerprint is the one the slot was made with. -/
def accepts (s : Slot) (fingerprint : Bytes) : Bool := s.fingerprint == fingerprint

end Slot

namespace Cache

/-- The mark by which streams are told apart. -/
def fingerprint (data : Bytes) : Bytes := Sha1.digest data

/-- A cache in which nothing is decoded. -/
def empty (table : ShapeTable) : Cache := ⟨table, .empty, .empty, .empty, 0⟩

/-! ### Requests -/

/-- Decodes a stream for a key. The stream has to be the key's own. -/
def decodeFor (table : ShapeTable) (key : MethodKey) (stream : Stream) : Except Error Method :=
  if stream.key = key then decodeMethod table stream
  else reject (.foreignStream stream.key key)

/-- Counts the inferred shapes of a method. -/
def recordVotes (votes : ShapeVotes) (m : Method) : ShapeVotes :=
  m.instructions.toList.foldl
    (fun v i => if i.source = .inferred then v.record i.opcode i.shape else v) votes

/-- The slot of a key, made with the given fingerprint if there is none. -/
def enroll (c : Cache) (key : MethodKey) (fingerprint : Bytes) : Cache × Slot :=
  match c.slots.get? key with
  | some slot => (c, slot)
  | none =>
    let slot : Slot := ⟨fingerprint, none⟩
    ({ c with slots := c.slots.insert key slot }, slot)

/-- Closes the slot of a key with a result. -/
def close (c : Cache) (key : MethodKey) (outcome : Outcome) : Cache :=
  { c with slots := c.slots.upsert key fun old =>
      { old.getD ⟨[], none⟩ with outcome := some outcome } }

/-- A reply to a request: the method or an error, and what is logged. -/
structure Reply where
  result : Except Error Method
  log : List Log.Record

/-- What is logged when a method has been decoded. -/
def decodedRecord (key : MethodKey) (m : Method) : Log.Record :=
  ⟨.debug, "decoded " ++ key.text
    ++ s!" - {m.instructions.size} instructions, {m.regions.length} regions"⟩

/-- What is logged when a method cannot be decoded. -/
def failedRecord (key : MethodKey) (text : String) : Log.Record :=
  ⟨.warn, "method " ++ key.text ++ " failed to decode - " ++ text⟩

/-- Decodes a stream for a key whose slot is open, and closes the slot. A failure is also noted among
the failures. -/
def decode (c : Cache) (key : MethodKey) (stream : Stream) : Cache × Reply :=
  let c := { c with decodes := c.decodes + 1 }
  match decodeFor c.table key stream with
  | .ok m =>
    ({ c.close key (.ok m) with votes := recordVotes c.votes m },
      ⟨.ok m, [decodedRecord key m]⟩)
  | .error e =>
    ({ c.close key (.error e.message) with failed := c.failed.insert key e.message },
      ⟨.error e, [failedRecord key e.message]⟩)

/-- Decodes the stream if the slot of the key is open, else reads the slot's result. -/
def settle (c : Cache) (key : MethodKey) (stream : Stream) : Cache × Reply :=
  match (c.slots.get? key).bind (·.outcome) with
  | some (.ok m) => (c, ⟨.ok m, []⟩)
  | some (.error text) => (c, ⟨.error (.methodFailed key text), []⟩)
  | none => c.decode key stream

/-- The method of a key, decoded from the stream if it is not decoded yet. -/
def request (c : Cache) (key : MethodKey) (stream : Stream) : Cache × Reply :=
  let mark := fingerprint stream.data
  let (c, slot) := c.enroll key mark
  if slot.accepts mark then c.settle key stream
  else (c, ⟨.error (.cacheInvariant key .streamDiffers), []⟩)

/-- Several requests for one key with one stream. -/
def requestMany (c : Cache) (key : MethodKey) (stream : Stream) :
    Nat → Cache × List Reply
  | 0 => (c, [])
  | n + 1 =>
    let (c, reply) := c.request key stream
    let (c, replies) := c.requestMany key stream n
    (c, reply :: replies)

/-! ### Queries -/

/-- The method of a key. -/
def method? (c : Cache) (key : MethodKey) : Option Method :=
  (c.slots.get? key).bind (·.method?)

/-- All methods, by ascending key. -/
def methods (c : Cache) : List Method := c.slots.values.filterMap (·.method?)

/-- All failures in words, by ascending key. -/
def failures (c : Cache) : List (MethodKey × String) := c.failed.entries

/-- The number of keys that were asked for. -/
def size (c : Cache) : Nat := c.slots.size

/-- Whether a result that was kept and a fresh one agree. -/
def agree : Outcome → Except Error Method → Bool
  | .ok kept, .ok fresh => kept == fresh
  | .error kept, .error fresh => kept == fresh.message
  | _, _ => false

/-- Decodes a stream once more and compares with the result that was kept. -/
def verify (c : Cache) (key : MethodKey) (stream : Stream) : Except Error Unit :=
  match (c.slots.get? key).bind (·.outcome) with
  | none => .error (.other ("Method " ++ key.text ++ " is not cached"))
  | some kept =>
    if agree kept (decodeMethod c.table stream) then .ok ()
    else .error (.cacheInvariant key .resultDiffers)

/-- The cache by its counts. -/
def inspect (c : Cache) : String :=
  s!"Disassembler \x7b methods: {c.size}, failures: {c.failures.length}, "
    ++ s!"decodes: {c.decodes}, .. \x7d"

end Cache

end OpcodeRecovery
