import CogMachine.Decimal.Shortest

/-!
# Layout of numbers

Two layouts write the same shortest digits. `Layout.plain` never uses an exponent; it shows values
to people. `Layout.source` marks a number as one that is not an integer, by a point or an
exponent; listings use it, so that the assembler reads the same kind of value back.
-/

namespace CogMachine

/-- How digits are laid out. -/
structure Layout where
  /-- Leading digits at powers of ten from `lowest` up to but not including `limit` are written
  without an exponent; where there are no bounds, all are. -/
  bounds : Option (Int × Int)
  /-- Whether a whole number written without an exponent ends in `.0`. -/
  pointed : Bool
  deriving DecidableEq

namespace Layout

/-- Digits with a point at most, never an exponent. -/
def plain : Layout := ⟨none, false⟩

/-- At least one digit after the point, and an exponent below `10^-4` and from `10^16` on. -/
def source : Layout := ⟨some (-4, 16), true⟩

/-- Whether the number whose leading digit stands at `10^e` is written without an exponent. -/
def isPositional (l : Layout) (e : Int) : Bool :=
  match l.bounds with
  | none => true
  | some (lowest, limit) => lowest ≤ e && e < limit

/-- Digits and their scale written with a point where one is needed. -/
def positional (l : Layout) (digits : List Char) (scale : Int) : List Char :=
  let point : Int := digits.length + scale
  if 0 ≤ scale then
    digits ++ List.replicate scale.toNat '0' ++ (if l.pointed then ['.', '0'] else [])
  else if 0 < point then digits.take point.toNat ++ '.' :: digits.drop point.toNat
  else '0' :: '.' :: (List.replicate (-point).toNat '0' ++ digits)

/-- One digit before the point, and the power of ten of that digit. -/
def scientific (digits : List Char) (e : Int) : List Char :=
  let mantissa := match digits with
    | first :: second :: rest => first :: '.' :: second :: rest
    | _ => digits
  mantissa ++ 'e' :: Text.digitsOfInt e

def decimal (l : Layout) (d : Decimal) : List Char :=
  let digits := Text.digitsOfNat d.digits
  let e := digits.length - 1 + d.exponent
  if l.isPositional e then l.positional digits d.exponent else scientific digits e

def magnitude (l : Layout) (m : Nat) : List Char :=
  if m = Single.infinityMagnitude then ['i', 'n', 'f']
  else if m = 0 then (if l.pointed then ['0', '.', '0'] else ['0'])
  else l.decimal (Single.shortest m)

/-- **Text of a single.** A NaN has no sign, `-0` has one. -/
def single (l : Layout) (x : Single) : List Char :=
  if x.isNaN then ['N', 'a', 'N']
  else if x.negative then '-' :: l.magnitude x.magnitude
  else l.magnitude x.magnitude

end Layout
end CogMachine
