/-!
Numbers with a fixed number of decimal places. A double is read off its bits as a sign and
an exact fraction, the fraction is scaled by the places and rounded to the nearest whole
number, a tie going to the even neighbour; no step is inexact.

* `Fixed.roundDiv` rounds a quotient of natural numbers.
* `Fixed.Real` is the exact value of a double, `Fixed.ofFloat` reads it off the bits.
* `Fixed.text` writes a double.
-/

namespace OpcodeRecovery

namespace Fixed

/-- The whole number nearest to `n / d`; of two, the even one. -/
def roundDiv (n d : Nat) : Nat :=
  let q := n / d
  let r := n % d
  if 2 * r < d then q
  else if d < 2 * r then q + 1
  else if q % 2 = 0 then q else q + 1

/-- The exact value of a double. -/
inductive Real where
  /-- The significand times that power of two, negated if `negative`. -/
  | finite (negative : Bool) (significand : Nat) (exponent : Int)
  | infinite (negative : Bool)
  | nan
  deriving DecidableEq, Repr

/-- How many fractions fifty-two bits can spell. -/
def fractions : Nat := 0x10000000000000

/-- The exact value of a double, from its sign bit, eleven bits of exponent and fifty-two
bits of fraction. -/
def ofFloat (x : Float) : Real :=
  let bits : Nat := x.toBits.toNat
  let negative : Bool := 0x8000000000000000 ≤ bits
  let exponent : Nat := bits / fractions % 2048
  let fraction : Nat := bits % fractions
  if exponent = 2047 then
    if fraction = 0 then .infinite negative else .nan
  else if exponent = 0 then .finite negative fraction (-1074)
  else .finite negative (fractions + fraction) ((exponent : Int) - 1075)

/-- The value in units of the last decimal place, rounded. -/
def scaled (places significand : Nat) (exponent : Int) : Nat :=
  let units := significand * Nat.pow 10 places
  if 0 ≤ exponent then units * Nat.pow 2 exponent.toNat
  else roundDiv units (Nat.pow 2 (-exponent).toNat)

/-- The digits of a number, filled up with zeros to a least width. -/
def digits (width n : Nat) : String :=
  let ds := Nat.toDigits 10 n
  String.ofList (List.replicate (width - ds.length) '0' ++ ds)

/-- A sign in front of negative values, zero included. -/
def sign (negative : Bool) : String := if negative then "-" else ""

/-- A double with a fixed number of decimal places. -/
def text (places : Nat) (x : Float) : String :=
  match ofFloat x with
  | .nan => "NaN"
  | .infinite negative => sign negative ++ "inf"
  | .finite negative significand exponent =>
    let n := scaled places significand exponent
    let whole := toString (n / Nat.pow 10 places)
    if places = 0 then sign negative ++ whole
    else sign negative ++ whole ++ "." ++ digits places (n % Nat.pow 10 places)

end Fixed

end OpcodeRecovery
