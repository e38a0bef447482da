import OpcodeRecovery.Bytes.Sha1
import OpcodeRecovery.Error
import OpcodeRecovery.Resource.Keystream

/-!
The layout of a resource, as far as its versions share it or differ in it.

A resource is the magic number, a version and a flags word, the number of methods as a
seven-bit integer, a directory of twelve bytes a method, and the bodies. The version decides
how a body is masked: each byte is combined with a key byte of the method's keystream, and
the second version also rotates it by the top three bits of the seed.

* `Version.encode` masks a body, `Version.decode` unmasks one.
* `checksum` is what a body is checked against if the flags ask for it.
-/

namespace OpcodeRecovery

namespace Resource

/-- The first four bytes of every resource. -/
def magic : Bytes := [0x45, 0x5A, 0x56, 0x4D]

/-- The bytes of a directory entry: token, seed and body offset, four bytes each. -/
def entrySize : Nat := 12

/-- The known versions of the layout. -/
inductive Version where
  | v1
  | v2
  deriving DecidableEq, Repr

namespace Version

/-- The number that stands for a version. -/
def number : Version → UInt16
  | v1 => 1
  | v2 => 2

/-- The name of a version. -/
def name : Version → String
  | v1 => "V1"
  | v2 => "V2"

/-- The version a number stands for. -/
def ofNumber? (n : UInt16) : Option Version :=
  if n = 1 then some v1 else if n = 2 then some v2 else none

/-- The version a number stands for, or the error that names the number. -/
def ofNumber (n : UInt16) : Except Error Version :=
  match ofNumber? n with
  | some v => .ok v
  | none => .error (.unsupportedVersion n)

/-- How far the second version rotates: the top three bits of the seed. -/
def rotation (seed : UInt32) : Nat := seed.toNat / 0x20000000

/-- Masks one byte with a key byte. -/
def encodeByte (v : Version) (rotation : Nat) (key byte : UInt8) : UInt8 :=
  match v with
  | v1 => byte ^^^ key
  | v2 => ⟨(byte ^^^ key).toBitVec.rotateLeft rotation⟩

/-- Unmasks one byte with a key byte. -/
def decodeByte (v : Version) (rotation : Nat) (key byte : UInt8) : UInt8 :=
  match v with
  | v1 => byte ^^^ key
  | v2 => ⟨byte.toBitVec.rotateRight rotation⟩ ^^^ key

/-- Masks a body. -/
def encode (v : Version) (seed : UInt32) (plain : Bytes) : Bytes :=
  List.zipWith (v.encodeByte (rotation seed)) (Keystream.bytes seed plain.length) plain

/-- Unmasks a body. -/
def decode (v : Version) (seed : UInt32) (masked : Bytes) : Bytes :=
  List.zipWith (v.decodeByte (rotation seed)) (Keystream.bytes seed masked.length) masked

end Version

/-- The optional features of a resource. -/
structure Flags where
  /-- Every body carries a checksum of its plain bytes. -/
  checksums : Bool
  deriving DecidableEq, Repr

namespace Flags

/-- The bit that stands for checksums. -/
def checksumBit : Nat := 1

/-- The flags word. -/
def bits (f : Flags) : Nat := if f.checksums then checksumBit else 0

/-- The flags of a word; `none` if it has a bit that stands for nothing. -/
def ofBits? (w : Nat) : Option Flags :=
  if w = 0 then some ⟨false⟩ else if w = checksumBit then some ⟨true⟩ else none

/-- The flags by name. -/
def inspect (f : Flags) : String :=
  if f.checksums then "ResourceFlags(CHECKSUM)" else "ResourceFlags(0x0)"

end Flags

/-- The checksum of a body: the first four bytes of its digest, as a number. -/
def checksum (plain : Bytes) : Nat := Bytes.toNatLE ((Sha1.digest plain).take 4)

end Resource

end OpcodeRecovery
