import OpcodeRecovery.Opcode.Resolve
import OpcodeRecovery.Progress

/-!
From methods to a mapping: the methods are counted, the opcodes resolved, and both told to
whoever watches. `Mapper.map` is a function of the methods alone; its notices are in a fixed
order.
-/

namespace OpcodeRecovery

/-- A resolver with the opcodes that are expected to exist. -/
structure Mapper where
  resolver : Resolver
  expected : List UInt8

namespace Mapper

/-- A mapper with the structural score. -/
def ofConfig (signatures : SignatureTable) (config : MappingConfig) (expected : List UInt8) :
    Mapper :=
  ⟨⟨signatures, structuralScorer config.weights, config⟩, expected⟩

/-- The same mapper with another score. -/
def withScorer (m : Mapper) (scorer : Scorer) : Mapper :=
  { m with resolver := { m.resolver with scorer } }

/-- What is logged when a mapping has been found. -/
def mappedRecord (mapping : Mapping) (profiles : ProfileSet) : Log.Record :=
  ⟨.info, s!"mapped {mapping.resolvedCount} of {mapping.size} opcodes from "
    ++ s!"{profiles.methods} methods ({profiles.instructions} instructions)"⟩

/-- Finds the mapping of some methods. -/
def map (m : Mapper) (methods : List Method) : Mapping × List Progress.Notice :=
  let profiles := ProfileSet.ofMethods methods
  let r := m.resolver.resolve profiles m.expected
  let mapping := r.mapping
  let notices : List Progress.Notice :=
    methods.map (fun x => .event (.profiled x.key x.instructions.size))
      ++ r.log.map .record
      ++ mapping.warnings.map (fun text => .record ⟨.warn, text⟩)
      ++ [.record (mappedRecord mapping profiles),
        .event (.complete mapping.resolvedCount mapping.unresolved.length)]
  (mapping, notices)

end Mapper

end OpcodeRecovery
