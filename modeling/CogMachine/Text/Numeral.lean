/-!
# Whole numbers in text

Decimal numerals of ASCII digits: unsigned ones with an optional plus sign, signed ones with an
optional sign, both refused when out of range. `natOfDigits` is the value of a digit string and
`digitsOfNat` writes one; reading what was written gives the number back.
-/

namespace CogMachine.Text

def digitValue (c : Char) : Nat := c.toNat - '0'.toNat

/-- **Value of a digit string,** most significant digit first. -/
def natOfDigits (cs : List Char) : Nat := cs.foldl (fun n c => 10 * n + digitValue c) 0

def digitsOfNat (n : Nat) : List Char := Nat.toDigits 10 n

/-- Digits of an integer, with a minus sign in front of a negative one. -/
def digitsOfInt (n : Int) : List Char :=
  if n < 0 then '-' :: digitsOfNat n.natAbs else digitsOfNat n.natAbs

def nat? (cs : List Char) : Option Nat :=
  if !cs.isEmpty && cs.all Char.isDigit then some (natOfDigits cs) else none

def unsignedLimit : Nat := 0x10000000000000000

/-- **Unsigned numeral** below `2^64`, with an optional plus sign. -/
def unsigned? (cs : List Char) : Option Nat :=
  let digits := match cs with
    | '+' :: rest => rest
    | _ => cs
  (nat? digits).filter (· < unsignedLimit)

/-- A sign and the text after it; no sign counts as plus. The flag is set for minus. -/
def splitSign : List Char → Bool × List Char
  | '-' :: rest => (true, rest)
  | '+' :: rest => (false, rest)
  | cs => (false, cs)

/-- **Signed numeral** that fits in 32 bits. -/
def int32? (cs : List Char) : Option Int32 :=
  let (negative, digits) := splitSign cs
  (nat? digits).bind fun n =>
    let v : Int := if negative then -(n : Int) else n
    if -0x80000000 ≤ v && v < 0x80000000 then some (Int32.ofInt v) else none

/-- Lower-case hexadecimal digits of a number, none leading. -/
def hexOfNat (n : Nat) : List Char := Nat.toDigits 16 n

end CogMachine.Text
