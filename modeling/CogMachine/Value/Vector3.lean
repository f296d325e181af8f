import CogMachine.Decimal.Layout
import CogMachine.Single.Arithmetic

/-!
# Vectors

Points and directions of the world: three singles, with componentwise arithmetic.
-/

namespace CogMachine

/-- A vector of three singles. -/
structure Vector3 where
  x : Single
  y : Single
  z : Single
  deriving DecidableEq, Inhabited, Repr

namespace Vector3

def zero : Vector3 := ⟨.zero, .zero, .zero⟩

def add (a b : Vector3) : Vector3 := ⟨a.x + b.x, a.y + b.y, a.z + b.z⟩

def sub (a b : Vector3) : Vector3 := ⟨a.x - b.x, a.y - b.y, a.z - b.z⟩

def scale (a : Vector3) (s : Single) : Vector3 := ⟨a.x * s, a.y * s, a.z * s⟩

def shrink (a : Vector3) (s : Single) : Vector3 := ⟨a.x / s, a.y / s, a.z / s⟩

def neg (a : Vector3) : Vector3 := ⟨-a.x, -a.y, -a.z⟩

/-- **Equality of values,** component by component; a NaN differs from itself. -/
def equals (a b : Vector3) : Bool := a.x.equals b.x && a.y.equals b.y && a.z.equals b.z

def isZero (a : Vector3) : Bool := a.equals zero

/-- The components between parentheses, separated by slashes. -/
def text (a : Vector3) : List Char :=
  '(' :: (Layout.plain.single a.x ++ '/' :: (Layout.plain.single a.y ++
    '/' :: (Layout.plain.single a.z ++ [')'])))

end Vector3
end CogMachine
