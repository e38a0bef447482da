import OpcodeRecovery.Bytes

/-!
The SHA-1 digest. A message is padded to whole blocks of 64 bytes (`Sha1.pad`), each block
is spread to eighty words (`Sha1.schedule`) and worked into five words of state
(`Sha1.compress`); the digest is the final state, most significant bytes first.

Resources use it as a checksum and the method cache as a fingerprint. Nothing depends on
more than that equal bytes have equal digests.
-/

namespace OpcodeRecovery

namespace Sha1

/-- The five words that a message is worked into. -/
structure State where
  a : UInt32
  b : UInt32
  c : UInt32
  d : UInt32
  e : UInt32
  deriving DecidableEq, Repr

/-- The state before the first block. -/
def State.initial : State :=
  ⟨0x67452301, 0xEFCDAB89, 0x98BADCFE, 0x10325476, 0xC3D2E1F0⟩

/-- Rotates a word to the left, by less than 32 places. -/
def rotate (w : UInt32) (n : UInt32) : UInt32 := (w <<< n) ||| (w >>> (32 - n))

/-- A number as `n` bytes, most significant first. -/
def bigEndian (n v : Nat) : Bytes := (Bytes.ofNatLE n v).reverse

/-- The message, a single set bit, zeros, and the message's length in bits: a multiple of
64 bytes. -/
def pad (message : Bytes) : Bytes :=
  let n := message.length
  message ++ 0x80 :: List.replicate ((119 - n % 64) % 64) 0 ++ bigEndian 8 (8 * n)

/-- The words of a block, four bytes each. -/
def words : Bytes → List UInt32
  | b0 :: b1 :: b2 :: b3 :: rest =>
    (b0.toUInt32 <<< 24 ||| b1.toUInt32 <<< 16 ||| b2.toUInt32 <<< 8 ||| b3.toUInt32)
      :: words rest
  | _ => []

/-- One more word of the schedule. -/
def extend (ws : Array UInt32) : Array UInt32 :=
  let n := ws.size
  let word (back : Nat) : UInt32 := ws.getD (n - back) 0
  ws.push (rotate (word 3 ^^^ word 8 ^^^ word 14 ^^^ word 16) 1)

/-- The eighty words of a block: its own sixteen, and sixty-four mixed from earlier ones. -/
def schedule (block : Bytes) : List UInt32 :=
  (Nat.fold 64 (fun _ _ ws => extend ws) (words block).toArray).toList

/-- The mixing function and the constant of a round. -/
def roundFunction (t : Nat) (s : State) : UInt32 × UInt32 :=
  if t < 20 then ((s.b &&& s.c) ||| (~~~s.b &&& s.d), 0x5A827999)
  else if t < 40 then (s.b ^^^ s.c ^^^ s.d, 0x6ED9EBA1)
  else if t < 60 then ((s.b &&& s.c) ||| (s.b &&& s.d) ||| (s.c &&& s.d), 0x8F1BBCDC)
  else (s.b ^^^ s.c ^^^ s.d, 0xCA62C1D6)

/-- One round. -/
def round (s : State) (w : UInt32 × Nat) : State :=
  let (f, k) := roundFunction w.2 s
  ⟨rotate s.a 5 + f + s.e + k + w.1, s.a, rotate s.b 30, s.c, s.d⟩

/-- Works a block into the state. -/
def compress (s : State) (block : Bytes) : State :=
  let r := (schedule block).zipIdx.foldl round s
  ⟨s.a + r.a, s.b + r.b, s.c + r.c, s.d + r.d, s.e + r.e⟩

/-- Cuts a padded message into blocks of 64 bytes. -/
def blocks (bs : Bytes) : List Bytes :=
  if bs.length < 64 then [] else bs.take 64 :: blocks (bs.drop 64)
termination_by bs.length
decreasing_by simp only [List.length_drop]; omega

/-- The digest of a message, twenty bytes. -/
def digest (message : Bytes) : Bytes :=
  let s := (blocks (pad message)).foldl compress State.initial
  [s.a, s.b, s.c, s.d, s.e].flatMap fun w => bigEndian 4 w.toNat

end Sha1

end OpcodeRecovery
