import OpcodeRecovery.Bytes
import OpcodeRecovery.MethodKey

/-!
What can go wrong, as causes, and the one place that puts causes into words.

* `Fault` lists the ways in which bytes can be malformed, with the numbers that the message
  names; `Fault.message` is its wording.
* `Breach` lists the ways in which two decodings of one method can disagree.
* `Error` is what the library's operations fail with. `Error.isFormat` holds of the errors
  that concern one item of the input, so that the rest can go on; `Error.isFatal` holds of
  those after which no answer can be trusted.

Malformed bytes and reads beyond the end are noticed at some place in the program, a file and a line,
which their full wording names in front of or behind the words. That place is left out here: an
`Error` has none, and neither has `Error.message` nor any text that is made from it.
-/

namespace OpcodeRecovery

/-- Malformed bytes. -/
inductive Fault where
  /-- A seven-bit integer whose fifth byte reaches beyond 32 bits. -/
  | sevenBitOverflow (offset : Nat)
  /-- Fewer bytes than the magic number has. -/
  | shortHeader (size : Nat)
  /-- A magic number other than the format's. -/
  | badMagic (found : Bytes)
  /-- The data ends inside the version or the flags. -/
  | truncatedHeader
  /-- Flag bits that the format does not define. -/
  | unknownResourceFlags (bits : Nat)
  /-- No valid method count. -/
  | badMethodCount
  /-- More directory entries than the data has room for. -/
  | longDirectory (count size : Nat)
  /-- A key that stands in the directory twice. -/
  | duplicateEntry (key : MethodKey)
  /-- A key that does not stand in the directory. -/
  | missingMethod (key : MethodKey)
  /-- A body offset beyond what an address can hold. -/
  | bodyOffsetOverflow (key : MethodKey)
  /-- A body offset behind the data. -/
  | bodyOffsetOutside (offset : Nat) (key : MethodKey)
  /-- No valid length in front of a body. -/
  | badLength (key : MethodKey)
  /-- The data ends inside a body's checksum. -/
  | truncatedChecksum (key : MethodKey)
  /-- The data ends inside a body. -/
  | truncatedStream (key : MethodKey) (declared available : Nat)
  /-- A body that does not have its checksum. -/
  | checksumMismatch (key : MethodKey) (expected found : Nat)
  /-- A method stream without a flags byte. -/
  | emptyStream
  /-- Flag bits that method streams do not define. -/
  | unknownMethodFlags (bits : Nat)
  /-- More exception regions than the stream has room for. -/
  | longRegionTable (count size : Nat)
  /-- An undefined kind of exception region. -/
  | unknownRegionKind (kind : Nat)
  /-- An exception region that reaches beyond the code. -/
  | regionOutside (codeSize tryStart tryLength handlerStart handlerLength : Nat)
  /-- An operand that the code is too short for. -/
  | operandOverrun (opcode : UInt8) (offset needed remaining : Nat)
  /-- A branch to a place outside the code. -/
  | targetOutside (target : Int) (opcode : UInt8) (offset codeSize : Nat)
  /-- A branch into the middle of an instruction. -/
  | targetInside (opcode : UInt8) (offset target : Nat)
  /-- A stream handed in for another method than its own. -/
  | foreignStream (own requested : MethodKey)
  /-- A fault that a caller describes in its own words. -/
  | note (text : String)
  deriving DecidableEq, Repr

/-- A disagreement between two decodings of one method. -/
inductive Breach where
  /-- The bytes are not those that were decoded first. -/
  | streamDiffers
  /-- The bytes were decoded again, with another result. -/
  | resultDiffers
  /-- A disagreement that a caller describes in its own words. -/
  | note (text : String)
  deriving DecidableEq, Repr

/-- What an operation fails with. -/
inductive Error where
  /-- Malformed or truncated bytes. -/
  | format (fault : Fault)
  /-- A read beyond the end of the data. -/
  | outOfBounds
  /-- No data at all. -/
  | empty
  /-- A resource of a version whose layout is not known. -/
  | unsupportedVersion (version : UInt16)
  /-- A method that failed to decode before, with the words of that failure. -/
  | methodFailed (key : MethodKey) (text : String)
  /-- A method whose decodings disagree. -/
  | cacheInvariant (key : MethodKey) (breach : Breach)
  /-- A file that cannot be opened, with the reason given for it. -/
  | file (text : String)
  /-- Any other failure, in words. -/
  | other (text : String)
  deriving DecidableEq, Repr

/-- The label of a code offset. -/
def offsetLabel (offset : Nat) : String := "IL_" ++ Hex.upper 4 offset

/-- The label of an opcode whose meaning is not known. -/
def opcodeLabel (opcode : UInt8) : String := "op_" ++ Hex.upper 2 opcode.toNat

/-- The wording of a fault. -/
def Fault.message : Fault → String
  | sevenBitOverflow offset => s!"7-bit encoded integer overflow at offset {offset}"
  | shortHeader size => s!"Resource too short for header - {size} bytes"
  | badMagic found =>
    "Invalid resource magic - ["
      ++ ", ".intercalate (found.map fun b => Hex.upper 2 b.toNat) ++ "]"
  | truncatedHeader => "Truncated resource header"
  | unknownResourceFlags bits => "Unknown resource flags - 0x" ++ Hex.upper 4 bits
  | badMethodCount => "Invalid method count prefix"
  | longDirectory count size =>
    s!"Directory of {count} methods exceeds resource size {size}"
  | duplicateEntry key => "Duplicate directory entry for " ++ key.text
  | missingMethod key => "Method " ++ key.text ++ " not present in resource"
  | bodyOffsetOverflow key => "Body offset overflow for " ++ key.text
  | bodyOffsetOutside offset key =>
    "Body offset 0x" ++ Hex.upper 1 offset ++ " of " ++ key.text ++ " outside resource"
  | badLength key => "Invalid length prefix for " ++ key.text
  | truncatedChecksum key => "Truncated checksum for " ++ key.text
  | truncatedStream key declared available =>
    "Truncated stream for " ++ key.text
      ++ s!" - declared {declared} bytes, {available} available"
  | checksumMismatch key expected found =>
    "Checksum mismatch for " ++ key.text ++ " - expected 0x" ++ Hex.upper 8 expected
      ++ ", got 0x" ++ Hex.upper 8 found
  | emptyStream => "Empty method stream"
  | unknownMethodFlags bits => "Unknown method flags - 0x" ++ Hex.upper 2 bits
  | longRegionTable count size =>
    s!"{count} exception regions exceed the stream of {size} bytes"
  | unknownRegionKind kind => s!"Unknown exception region kind - {kind}"
  | regionOutside codeSize tryStart tryLength handlerStart handlerLength =>
    s!"Exception region outside code of {codeSize} bytes - try "
      ++ offsetLabel tryStart ++ s!"+{tryLength}, handler "
      ++ offsetLabel handlerStart ++ s!"+{handlerLength}"
  | operandOverrun opcode offset needed remaining =>
    "Operand of " ++ opcodeLabel opcode ++ " at " ++ offsetLabel offset
      ++ s!" needs {needed} bytes, {remaining} remaining"
  | targetOutside target opcode offset codeSize =>
    s!"Branch target {target} of " ++ opcodeLabel opcode ++ " at " ++ offsetLabel offset
      ++ s!" outside code of {codeSize} bytes"
  | targetInside opcode offset target =>
    "Branch of " ++ opcodeLabel opcode ++ " at " ++ offsetLabel offset ++ " targets "
      ++ offsetLabel target ++ ", inside an instruction"
  | foreignStream own requested =>
    "Stream of " ++ own.text ++ " passed for method " ++ requested.text
  | note text => text

/-- The wording of a breach. -/
def Breach.message : Breach → String
  | streamDiffers => "stream differs from the one first decoded"
  | resultDiffers => "re-decoding produced a different result"
  | note text => text

namespace Error

/-- An error in words, without the place in the program where it was noticed. -/
def message : Error → String
  | format fault => "Format - " ++ fault.message
  | outOfBounds => "Out of Bound read would have occurred!"
  | empty => "Provided input was empty"
  | unsupportedVersion version =>
    s!"Unsupported resource format version - {version.toNat}"
  | methodFailed key text => "Method " ++ key.text ++ " failed to decode - " ++ text
  | cacheInvariant key breach =>
    "Cache invariant violated for method " ++ key.text ++ " - " ++ breach.message
  | file text => text
  | other text => text

/-- Errors of one item of the input; the rest can go on. -/
def isFormat : Error → Bool
  | format _ | outOfBounds | methodFailed .. => true
  | _ => false

/-- Errors that end the whole run. -/
def isFatal : Error → Bool
  | cacheInvariant .. => true
  | _ => false

end Error

/-- Fails with a fault. -/
def reject {α : Type} (fault : Fault) : Except Error α := .error (.format fault)

/-- The value of a read, or a failure with the fault that a missing value is. -/
def require {α : Type} (fault : Fault) : Option α → Except Error α
  | some a => .ok a
  | none => reject fault

end OpcodeRecovery
