import OpcodeRecovery.Log
import OpcodeRecovery.MethodKey

/-!
Progress: what a run tells about itself while it goes on.

A run yields a list of notices in order, each a log record or a progress event
(`Progress.Notice`). An observer decides what becomes of the events: they are recorded,
logged, or dropped. Records go to the log whoever watches.
-/

namespace OpcodeRecovery

namespace Progress

/-- A step of a run. -/
inductive Event where
  /-- The bytes of a method were read. -/
  | extracted (key : MethodKey) (bytes : Nat)
  /-- A method was decoded. -/
  | disassembled (key : MethodKey) (instructions : Nat)
  /-- A method could not be read or decoded. -/
  | failed (key : MethodKey) (text : String)
  /-- A method was counted. -/
  | profiled (key : MethodKey) (instructions : Nat)
  /-- All opcodes have a verdict. -/
  | complete (resolved unresolved : Nat)
  deriving DecidableEq, Repr

namespace Event

/-- An event as a line. -/
def text : Event → String
  | extracted key bytes => "extracted " ++ key.text ++ s!" ({bytes} bytes)"
  | disassembled key instructions =>
    "disassembled " ++ key.text ++ s!" ({instructions} instructions)"
  | failed key message => "failed " ++ key.text ++ ": " ++ message
  | profiled key instructions => "profiled " ++ key.text ++ s!" ({instructions} instructions)"
  | complete resolved unresolved =>
    s!"mapping complete: {resolved} resolved, {unresolved} unresolved"

/-- The record by which an event is logged; failures are warnings. -/
def record (e : Event) : Log.Record :=
  match e with
  | failed .. => ⟨.warn, e.text⟩
  | _ => ⟨.info, e.text⟩

end Event

/-- A log record or an event. -/
inductive Notice where
  | record (r : Log.Record)
  | event (e : Event)
  deriving DecidableEq, Repr

/-- Who watches a run. -/
inductive Observer where
  /-- Events are kept. -/
  | recorder
  /-- Events are logged. -/
  | logger
  /-- Events are dropped. -/
  | silent
  deriving DecidableEq, Repr

/-- The events among some notices. -/
def events (ns : List Notice) : List Event :=
  ns.filterMap fun
    | .event e => some e
    | .record _ => none

namespace Observer

/-- What an observer keeps of some notices. -/
def recorded (o : Observer) (ns : List Notice) : List Event :=
  match o with
  | .recorder => events ns
  | .logger | .silent => []

/-- What goes to the log of some notices. -/
def logged (o : Observer) (ns : List Notice) : List Log.Record :=
  ns.filterMap fun
    | .record r => some r
    | .event e =>
      match o with
      | .logger => some e.record
      | .recorder | .silent => none

end Observer

end Progress

end OpcodeRecovery
