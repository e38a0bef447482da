import OpcodeRecovery.Bytes.SevenBit
import OpcodeRecovery.Log
import OpcodeRecovery.Resource.Format
import OpcodeRecovery.Stream

/-!
Reading resources.

* `Resource.load` takes the bytes of a resource from where they are; a resource is never
  empty.
* `Archive.ofResource` reads the header and the directory. It accepts the bytes of a resource
  exactly if they are well formed up to the end of the directory and no key stands there
  twice; the bodies are not looked at.
* `Archive.walk` goes through the directory entry by entry, as often as one likes; at every
  step it knows how many entries lie ahead.
* `Archive.extract` reads the plain bytes of one method. It looks at nothing but the header,
  the directory and that method's own bytes, so a damaged body fails alone.
-/

namespace OpcodeRecovery

/-- The bytes of a resource; there is at least one. -/
structure Resource where
  data : Bytes
  nonempty : data ≠ []

namespace Resource

/-! ### Loading -/

/-- Where the bytes of a resource come from. -/
inductive Origin where
  /-- Bytes at hand, in memory or in a file that was read. -/
  | bytes (data : Bytes)
  /-- A path at which there is nothing. -/
  | missing
  /-- A path at which there is a directory. -/
  | directory

/-- A resource from its bytes. -/
def ofBytes (data : Bytes) : Except Error Resource :=
  if h : data = [] then .error .empty else .ok ⟨data, h⟩

/-- A resource from where its bytes are. -/
def load : Origin → Except Error Resource
  | .bytes data => ofBytes data
  | .missing => .error (.file "No such file or directory (os error 2)")
  | .directory => .error (.other "No such device (os error 19)")

/-- The number of bytes. -/
def size (r : Resource) : Nat := r.data.length

/-- A resource by its size. -/
def inspect (r : Resource) : String := s!"Resource \x7b len: {r.size} \x7d"

/-! ### Header and directory -/

/-- What the bytes in front of the bodies say. -/
structure Header where
  version : Version
  flags : Flags
  methodCount : Nat
  /-- Where the directory starts. -/
  directoryStart : Nat
  /-- Where the directory ends and the first body may start. -/
  bodyStart : Nat
  deriving DecidableEq, Repr

/-- A directory entry: a method and the place of its body behind the directory. -/
structure Entry where
  key : MethodKey
  place : Nat
  deriving DecidableEq, Repr

namespace Entry

/-- Reads one entry. -/
def read? (bs : Bytes) : Option (Entry × Bytes) := do
  let (token, bs) ← Bytes.number? 4 bs
  let (seed, bs) ← Bytes.number? 4 bs
  let (place, bs) ← Bytes.number? 4 bs
  return (⟨⟨⟨UInt32.ofNat token⟩, UInt32.ofNat seed⟩, place⟩, bs)

/-- Reads up to `n` entries, as many as there are. -/
def readMany : Nat → Bytes → List Entry
  | 0, _ => []
  | n + 1, bs =>
    match read? bs with
    | some (e, rest) => e :: readMany n rest
    | none => []

/-- The first key of a list of entries that stood there before. -/
def firstRepeated? : List MethodKey → List Entry → Option MethodKey
  | _, [] => none
  | seen, e :: rest =>
    if e.key ∈ seen then some e.key else firstRepeated? (e.key :: seen) rest

end Entry

/-! ### Walks -/

/-- A walk through a directory: its bytes, and how many of them lie behind. -/
structure Walk where
  directory : Bytes
  position : Nat

namespace Walk

/-- The next entry and the walk from there; `none` if no whole entry lies ahead. -/
def next? (w : Walk) : Option (Entry × Walk) :=
  (Entry.read? (w.directory.drop w.position)).map fun (e, _) =>
    (e, { w with position := w.position + entrySize })

/-- How many entries lie ahead. -/
def remaining (w : Walk) : Nat := (w.directory.length - w.position) / entrySize

/-- Takes up to `n` steps. Returns the entries met, each with the number of those that lay
ahead before it, and the walk from there. -/
def steps : Nat → Walk → List (Nat × Entry) × Walk
  | 0, w => ([], w)
  | n + 1, w =>
    match w.next? with
    | none => ([], w)
    | some (e, w') =>
      let (met, last) := steps n w'
      ((w.remaining, e) :: met, last)

end Walk

/-! ### Reading the header -/

/-- Reads the header. -/
def readHeader (data : Bytes) : Except Error Header := do
  let (found, bs) ← require (.shortHeader data.length) (Bytes.split? magic.length data)
  if found ≠ magic then reject (.badMagic found)
  let (number, bs) ← require .truncatedHeader (Bytes.number? 2 bs)
  let version ← Version.ofNumber (UInt16.ofNat number)
  let (bits, bs) ← require .truncatedHeader (Bytes.number? 2 bs)
  let flags ← require (.unknownResourceFlags bits) (Flags.ofBits? bits)
  let (count, bs) ← require .badMethodCount (SevenBit.decode? bs)
  if entrySize * count > bs.length then reject (.longDirectory count data.length)
  let directoryStart := data.length - bs.length
  return ⟨version, flags, count, directoryStart, directoryStart + entrySize * count⟩

end Resource

/-! ### Archives -/

/-- A resource whose header and directory have been read. -/
structure Archive where
  resource : Resource
  header : Resource.Header
  entries : List Resource.Entry

namespace Archive

open Resource

/-- Positions lie below this bound; an address beyond it does not exist. -/
def addressLimit : Nat := 0x10000000000000000

/-- Reads header and directory of a resource. -/
def ofResource (resource : Resource) : Except Error Archive := do
  let header ← readHeader resource.data
  let entries := Entry.readMany header.methodCount (resource.data.drop header.directoryStart)
  match Entry.firstRepeated? [] entries with
  | some key => reject (.duplicateEntry key)
  | none => return ⟨resource, header, entries⟩

/-- What is logged when a resource has been opened. -/
def openingRecord (a : Archive) : Log.Record :=
  ⟨.debug, "resource " ++ a.header.version.name
    ++ s!" with {a.header.methodCount} methods, checksums: {a.header.flags.checksums}"⟩

/-- The keys of the directory, in its order. -/
def keys (a : Archive) : List MethodKey := a.entries.map (·.key)

/-- A walk from the start of the directory to its end. -/
def walk (a : Archive) : Walk :=
  ⟨(a.resource.data.take a.header.bodyStart).drop a.header.directoryStart, 0⟩

/-- Whether a method stands in the directory. -/
def contains (a : Archive) (key : MethodKey) : Bool := a.keys.contains key

/-- The header as text. -/
def inspect (a : Archive) : String :=
  "StreamExtractor \x7b header: ResourceHeader \x7b version: " ++ a.header.version.name
    ++ ", flags: " ++ a.header.flags.inspect
    ++ s!", method_count: {a.header.methodCount}, directory_start: {a.header.directoryStart}"
    ++ s!", body_start: {a.header.bodyStart} \x7d, .. \x7d"

/-- Reads the plain bytes of a method whose body starts the given bytes. -/
def readBody (version : Version) (flags : Flags) (key : MethodKey) (bs : Bytes) :
    Except Error Stream := do
  let (length, bs) ← require (.badLength key) (SevenBit.decode? bs)
  if flags.checksums then
    let (expected, bs) ← require (.truncatedChecksum key) (Bytes.number? 4 bs)
    let (masked, _) ← require (.truncatedStream key length bs.length) (Bytes.split? length bs)
    let plain := version.decode key.seed masked
    if checksum plain ≠ expected then
      reject (.checksumMismatch key expected (checksum plain))
    return ⟨key, plain⟩
  else
    let (masked, _) ← require (.truncatedStream key length bs.length) (Bytes.split? length bs)
    return ⟨key, version.decode key.seed masked⟩

/-- Reads the body that a directory entry points to. -/
def extractEntry (a : Archive) (entry : Entry) : Except Error Stream := do
  let start := a.header.bodyStart + entry.place
  if start ≥ addressLimit then reject (.bodyOffsetOverflow entry.key)
  if start > a.resource.data.length then reject (.bodyOffsetOutside entry.place entry.key)
  readBody a.header.version a.header.flags entry.key (a.resource.data.drop start)

/-- Reads the body of a method of the directory. -/
def extract (a : Archive) (key : MethodKey) : Except Error Stream :=
  match a.entries.find? (·.key == key) with
  | some entry => a.extractEntry entry
  | none => reject (.missingMethod key)

end Archive

end OpcodeRecovery
