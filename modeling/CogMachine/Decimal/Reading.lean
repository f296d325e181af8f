import CogMachine.Single.Basic
import CogMachine.Text.Numeral

/-!
# Reading decimals

`Single.ofText?` reads a number as written in a script: an optional sign, then `inf`, `infinity`
or `nan` in any case, or digits with at most one point and an optional exponent. The decimal is
rounded to a single once, from its exact value.
-/

namespace CogMachine

/-- **An exact decimal:** `digits * 10 ^ exponent`. -/
structure Decimal where
  digits : Nat
  exponent : Int
  deriving DecidableEq, Repr

namespace Decimal

/-- Numerator and denominator of the number of units a decimal amounts to. -/
def unitQuotient (d : Decimal) : Nat × Nat :=
  if 0 ≤ d.exponent then (d.digits * Nat.pow 10 d.exponent.toNat * Single.unitsPerOne, 1)
  else (d.digits * Single.unitsPerOne, Nat.pow 10 (-d.exponent).toNat)

/-- **Nearest single.** A decimal of `10^40` and more is beyond the largest finite single, and one
below `10^-60` is nearer to zero than to the smallest positive single, so neither needs its power of
ten computed. -/
def toMagnitude (d : Decimal) : Nat :=
  if d.digits = 0 then 0
  else if 40 ≤ d.exponent then Single.infinityMagnitude
  else if d.exponent < -((d.digits.log2 : Int) + 61) then 0
  else Single.roundMagnitude d.unitQuotient.1 d.unitQuotient.2

/-- The exponent part of a numeral: nothing, or `e` and an optionally signed digit string. -/
def exponent? : List Char → Option Int
  | [] => some 0
  | c :: rest =>
    if c = 'e' || c = 'E' then
      let (negative, digits) := Text.splitSign rest
      (Text.nat? digits).map fun n => if negative then -(n : Int) else n
    else none

/-- **Unsigned numeral.** Digits with at most one point and at least one digit, then the exponent. -/
def ofText? (cs : List Char) : Option Decimal :=
  let whole := cs.takeWhile Char.isDigit
  let afterWhole := cs.dropWhile Char.isDigit
  let (fraction, rest) := match afterWhole with
    | '.' :: tail => (tail.takeWhile Char.isDigit, tail.dropWhile Char.isDigit)
    | _ => ([], afterWhole)
  if whole.isEmpty && fraction.isEmpty then none
  else (exponent? rest).map fun e =>
    ⟨Text.natOfDigits (whole ++ fraction), e - fraction.length⟩

end Decimal

namespace Single

/-- The words for values without digits, in any case. -/
def magnitudeOfWord? (cs : List Char) : Option Nat :=
  let word := cs.map Char.toLower
  if word = ['n', 'a', 'n'] then some 0x7fc00000
  else if word = ['i', 'n', 'f'] || word = ['i', 'n', 'f', 'i', 'n', 'i', 't', 'y'] then
    some infinityMagnitude
  else none

/-- **Reading a single.** A sign in front of `nan` sets its sign bit. -/
def ofText? (cs : List Char) : Option Single :=
  let (negative, body) := Text.splitSign cs
  let magnitude := (Decimal.ofText? body).map Decimal.toMagnitude
  (magnitude <|> magnitudeOfWord? body).map (ofMagnitude negative)

end Single
end CogMachine
