import OpcodeRecovery.Bytes.SevenBit
import OpcodeRecovery.Resource.Format
import OpcodeRecovery.Stream

/-!
The contents of a resource before it is written: a version, flags and the plain bytes of
its methods in order, and `Contents.write`, which lays them out as bytes.

The directory is written in front of the bodies and names for each method the place of its
body, counted from the first one. Counts, lengths and places are 32-bit numbers; what does
not fit is written as the largest of them.
-/

namespace OpcodeRecovery

namespace Resource

/-- What a resource is made of. -/
structure Contents where
  version : Version
  flags : Flags
  methods : List Stream

namespace Contents

/-- A number in 32 bits, the largest one if it does not fit. -/
def word (n : Nat) : Nat := min n 0xFFFFFFFF

/-- A body: its length, the checksum of its plain bytes if asked for, its masked bytes. -/
def body (version : Version) (flags : Flags) (s : Stream) : Bytes :=
  SevenBit.encode (word s.data.length)
    ++ (if flags.checksums then Bytes.ofNatLE 4 (checksum s.data) else [])
    ++ version.encode s.key.seed s.data

/-- The directory entry of a body at a given place. -/
def entry (key : MethodKey) (place : Nat) : Bytes :=
  Bytes.ofNatLE 4 key.token.value.toNat ++ Bytes.ofNatLE 4 key.seed.toNat
    ++ Bytes.ofNatLE 4 (word place)

/-- Directory and bodies of methods whose first body stands at `place`. -/
def layout (version : Version) (flags : Flags) : Nat → List Stream → Bytes × Bytes
  | _, [] => ([], [])
  | place, s :: rest =>
    let b := body version flags s
    let (directory, bodies) := layout version flags (place + b.length) rest
    (entry s.key place ++ directory, b ++ bodies)

/-- The bytes in front of the directory. -/
def header (c : Contents) : Bytes :=
  magic ++ Bytes.ofNatLE 2 c.version.number.toNat ++ Bytes.ofNatLE 2 c.flags.bits
    ++ SevenBit.encode (word c.methods.length)

/-- The bytes of a resource. -/
def write (c : Contents) : Bytes :=
  let (directory, bodies) := layout c.version c.flags 0 c.methods
  c.header ++ directory ++ bodies

end Contents

end Resource

end OpcodeRecovery
