import CogMachine.Single.Basic

/-!
# Single precision arithmetic

Each operation computes its exact result in units of `2^-149` and rounds it once. The cases
without an exact result (a NaN operand, `inf - inf`, `0 * inf`, `0 / 0`, a remainder by zero) give
the quiet NaN. A sum that cancels is `+0`; products and quotients take the product of the signs,
a remainder the sign of its dividend.
-/

namespace CogMachine.Single

/-- Flips the sign bit, of a NaN too. -/
def neg (x : Single) : Single := ⟨x.bits ^^^ 0x80000000⟩

/-- **Sum** of two finite numbers given by sign and units. -/
def addUnits (s : Bool) (a : Nat) (t : Bool) (b : Nat) : Single :=
  if s = t then ofUnits s (a + b) 1
  else if a = b then zero
  else if b < a then ofUnits s (a - b) 1
  else ofUnits t (b - a) 1

/-- The sum, rounded to nearest. -/
def add (x y : Single) : Single :=
  match x.meaning, y.meaning with
  | .nan, _ => nan
  | _, .nan => nan
  | .infinite s, .infinite t => if s = t then x else nan
  | .infinite _, .finite _ _ => x
  | .finite _ _, .infinite _ => y
  | .finite s a, .finite t b => addUnits s a t b

/-- The difference, rounded to nearest. -/
def sub (x y : Single) : Single := x.add y.neg

/-- The product, rounded to nearest. -/
def mul (x y : Single) : Single :=
  match x.meaning, y.meaning with
  | .nan, _ => nan
  | _, .nan => nan
  | .infinite s, .infinite t => infinity (s != t)
  | .infinite s, .finite t b => if b = 0 then nan else infinity (s != t)
  | .finite s a, .infinite t => if a = 0 then nan else infinity (s != t)
  | .finite s a, .finite t b => ofUnits (s != t) (a * b) unitsPerOne

/-- The quotient, rounded to nearest; a non-zero number divided by zero is infinite. -/
def div (x y : Single) : Single :=
  match x.meaning, y.meaning with
  | .nan, _ => nan
  | _, .nan => nan
  | .infinite _, .infinite _ => nan
  | .infinite s, .finite t _ => infinity (s != t)
  | .finite s _, .infinite t => ofMagnitude (s != t) 0
  | .finite s a, .finite t b =>
    if b = 0 then (if a = 0 then nan else infinity (s != t))
    else ofUnits (s != t) (a * unitsPerOne) b

/-- **Remainder** of the division truncated toward zero; it is always exact. -/
def rem (x y : Single) : Single :=
  match x.meaning, y.meaning with
  | .nan, _ => nan
  | _, .nan => nan
  | .infinite _, _ => nan
  | .finite _ _, .infinite _ => x
  | .finite s a, .finite _ b => if b = 0 then nan else ofUnits s (a % b) 1

instance : Neg Single := ⟨neg⟩
instance : Add Single := ⟨add⟩
instance : Sub Single := ⟨sub⟩
instance : Mul Single := ⟨mul⟩
instance : Div Single := ⟨div⟩
instance : Mod Single := ⟨rem⟩

end CogMachine.Single
