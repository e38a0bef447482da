/-!
Sets of code offsets below a fixed bound, packed sixty-four to a word. Marking an offset at
or beyond the bound has no effect.
-/

namespace OpcodeRecovery

/-- A set of offsets below `bound`, one bit each. -/
structure OffsetSet where
  bound : Nat
  words : Array UInt64
  deriving DecidableEq, Repr

namespace OffsetSet

/-- The offsets that share a word. -/
def wordSize : Nat := 64

/-- The set without members. -/
def empty (bound : Nat) : OffsetSet :=
  ⟨bound, Array.replicate ((bound + wordSize - 1) / wordSize) 0⟩

/-- The bit of an offset inside its word. -/
def mask (offset : Nat) : UInt64 := 1 <<< UInt64.ofNat (offset % wordSize)

/-- Whether an offset is a member. -/
def contains (s : OffsetSet) (offset : Nat) : Bool :=
  decide (offset < s.bound) && (s.words.getD (offset / wordSize) 0 &&& mask offset) != 0

/-- Replaces the word of an offset, if the offset lies below the bound. -/
def update (s : OffsetSet) (offset : Nat) (f : UInt64 → UInt64) : OffsetSet :=
  if offset < s.bound then { s with words := s.words.modify (offset / wordSize) f } else s

/-- Makes an offset a member. -/
def insert (s : OffsetSet) (offset : Nat) : OffsetSet :=
  s.update offset (· ||| mask offset)

/-- Makes an offset no member. -/
def erase (s : OffsetSet) (offset : Nat) : OffsetSet :=
  s.update offset (· &&& ~~~mask offset)

/-- The number of set bits of a word. -/
def bitCount (w : UInt64) : Nat :=
  (List.range wordSize).countP fun i => w.toNat.testBit i

/-- The number of members. -/
def size (s : OffsetSet) : Nat := s.words.toList.foldr (fun w n => bitCount w + n) 0

/-- The members, ascending. -/
def toList (s : OffsetSet) : List Nat := (List.range s.bound).filter s.contains

/-- The offsets of a list that lie below a bound. -/
def ofList (bound : Nat) (offsets : List Nat) : OffsetSet := offsets.foldl insert (empty bound)

end OffsetSet

end OpcodeRecovery
