import CogMachine.Rounding

/-!
# Single precision numbers

A `Single` is a binary32 bit pattern. Its meaning is exact arithmetic on naturals: every finite
single is a whole number of *units* of `2^-149`, the smallest positive single, so

- `unitsOfMagnitude` reads the low 31 bits as a number of units, and
- `roundMagnitude` gives the low 31 bits of the single nearest to a quotient of units, a half
  going to the even one, and infinity's pattern above the range.

Two facts make this short. Below `2^24` units the pattern *is* the number of units; above, each
doubling of the value adds `2^23` to the pattern. Hence the low 31 bits are ordered as the values
are, and the order of singles is the order of `key`.
-/

namespace CogMachine

/-- A binary32 number, held as its bit pattern. -/
structure Single where
  bits : UInt32
  deriving DecidableEq, Inhabited, Repr

namespace Single

def signBit : Nat := 0x80000000

/-- **Sign.** The top bit: set for negative numbers, for `-0` and for some NaNs. -/
def negative (x : Single) : Bool := signBit ≤ x.bits.toNat

def magnitude (x : Single) : Nat := x.bits.toNat % signBit

def ofMagnitude (negative : Bool) (m : Nat) : Single :=
  ⟨UInt32.ofNat (if negative then m + signBit else m)⟩

/-- The low bits of an infinity; a larger magnitude is a NaN. -/
def infinityMagnitude : Nat := 0x7f800000

/-- The quiet NaN that operations without a result give. -/
def nan : Single := ⟨0x7fc00000⟩

def zero : Single := ⟨0⟩

def infinity (negative : Bool) : Single := ofMagnitude negative infinityMagnitude

def isNaN (x : Single) : Bool := infinityMagnitude < x.magnitude

/-! ## Units -/

/-- How many units of `2^-149` make one. -/
def unitsPerOne : Nat := 1 <<< 149

/-- How many patterns there are between a power of two and the next: `2^23`. -/
def binade : Nat := 0x800000

/-- **Reading a magnitude.** Units denoted by the low bits of a finite single. -/
def unitsOfMagnitude (m : Nat) : Nat :=
  let k := m / binade - 1
  (m - k * binade) <<< k

/-- **Rounding to a magnitude.** The low bits of the single nearest to `n / d` units: the pattern
keeps the 24 leading bits of the quotient, and a carry out of them lands in the exponent. -/
def roundMagnitude (n d : Nat) : Nat :=
  let k := (n / d).log2 - 23
  min (k * binade + roundDiv n (d <<< k)) infinityMagnitude

/-- The single of the given sign nearest to `n / d` units. -/
def ofUnits (negative : Bool) (n d : Nat) : Single :=
  ofMagnitude negative (roundMagnitude n d)

/-- What a single denotes. -/
inductive Meaning where
  | nan
  | infinite (negative : Bool)
  | finite (negative : Bool) (units : Nat)
  deriving DecidableEq

/-- **Meaning.** A NaN, an infinity, or a signed number of units. -/
def meaning (x : Single) : Meaning :=
  if x.isNaN then .nan
  else if x.magnitude = infinityMagnitude then .infinite x.negative
  else .finite x.negative (unitsOfMagnitude x.magnitude)

/-! ## Order -/

/-- The magnitude with its sign, a number that grows with the value and is `0` for both zeros. -/
def key (x : Single) : Int := if x.negative then -(x.magnitude : Int) else x.magnitude

/-- **Order of values.** Nothing is comparable with a NaN; the two zeros are equal. -/
def compare? (x y : Single) : Option Ordering :=
  if x.isNaN || y.isNaN then none else some (compare x.key y.key)

/-- Equality of values, which is not equality of patterns: a NaN differs from itself and the two
zeros are equal. -/
def equals (x y : Single) : Bool := x.compare? y == some .eq

/-! ## Whole numbers -/

def ofInt32 (n : Int32) : Single :=
  ofUnits (n < 0) (n.toInt.natAbs * unitsPerOne) 1

/-- **Truncation.** The integer part; out of range it sticks at the nearer end, and a NaN
gives zero. -/
def toInt32 (x : Single) : Int32 :=
  match x.meaning with
  | .nan => 0
  | .infinite s => if s then Int32.minValue else Int32.maxValue
  | .finite s u =>
    let whole := u / unitsPerOne
    if s then Int32.ofInt (max (-(whole : Int)) (-0x80000000))
    else Int32.ofInt (min (whole : Int) 0x7fffffff)

end Single
end CogMachine
