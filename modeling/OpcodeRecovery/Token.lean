import OpcodeRecovery.Text.Hex

/-!
Metadata tokens: 32-bit references whose top byte names a metadata table and whose low
three bytes give a row of it. Virtualized code keeps the tokens of the program it came
from, and `Token.isPlausibleReference` is the test by which a four-byte operand is taken
for one.
-/

namespace OpcodeRecovery

/-- A 32-bit metadata token. -/
structure Token where
  value : UInt32
  deriving DecidableEq, Repr

namespace Token

/-- The table a token points into: its top byte. -/
def table (t : Token) : Nat := t.value.toNat / 0x1000000

/-- The row of the table: the low 24 bits. -/
def row (t : Token) : Nat := t.value.toNat % 0x1000000

/-- The null token refers to nothing. -/
def isNull (t : Token) : Bool := t.value == 0

/-- The tables that instruction operands refer to: type references and definitions, fields,
method definitions, member references, signatures, type and method specifications, and
user strings. -/
def referencedTables : List Nat :=
  [0x01, 0x02, 0x04, 0x06, 0x0A, 0x11, 0x1B, 0x2B, 0x70]

/-- A value looks like an operand's reference if its table is one of those that operands
refer to and its row is not zero. -/
def isPlausibleReference (t : Token) : Bool :=
  t.row != 0 && referencedTables.contains t.table

/-- The token as eight hexadecimal digits. -/
def text (t : Token) : String := "0x" ++ Hex.lower 8 t.value.toNat

/-- The token with its two parts spelled out. -/
def inspect (t : Token) : String :=
  "Token(" ++ t.text ++ ", table: 0x" ++ Hex.lower 2 t.table ++ ", row: "
    ++ toString t.row ++ ")"

end Token

end OpcodeRecovery
