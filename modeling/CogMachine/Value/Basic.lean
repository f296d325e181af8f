import CogMachine.Text.Quoted
import CogMachine.Value.ValueType
import CogMachine.Value.Vector3

/-!
# Values

The values a script computes with, and the coercions that let every operation apply to every
value: to a truth value for branches, to an integer for indices and bits, to a single for mixed
arithmetic. `text` is the form that people see; a string shows as itself.
-/

namespace CogMachine

/-- A value of a script. -/
inductive Value where
  | void
  | int (n : Int32)
  | float (x : Single)
  | bool (b : Bool)
  | string (s : String)
  | vector (v : Vector3)
  | handle (kind : HandleKind) (id : Int32)
  deriving DecidableEq, Inhabited, Repr

namespace Value

/-- **Truth.** Void, zeros, the empty string and handles with a negative id are false; a NaN
is true. -/
def isTruthy : Value → Bool
  | void => false
  | int n => n != 0
  | float x => !x.equals .zero
  | bool b => b
  | string s => s != ""
  | vector v => !v.isZero
  | handle _ id => 0 ≤ id

/-- **Integer coercion.** Floats are truncated, handles give their id, and what is no number
gives zero. -/
def asInt : Value → Int32
  | int n => n
  | float x => x.toInt32
  | bool b => if b then 1 else 0
  | handle _ id => id
  | void | string _ | vector _ => 0

/-- Float coercion: a float is itself, any other value goes through its integer coercion. -/
def asFloat : Value → Single
  | float x => x
  | v => .ofInt32 v.asInt

/-- Whether arithmetic with this value is done in single precision. -/
def isFloat : Value → Bool
  | float _ => true
  | _ => false

def type : Value → ValueType
  | void => .void
  | int _ => .int
  | float _ => .float
  | bool _ => .bool
  | string _ => .string
  | vector _ => .vector
  | handle kind _ => .handle kind

/-- The value of a cell of the given type before anything is stored; a handle that names nothing
has the id `-1`. -/
def zero : ValueType → Value
  | .void => void
  | .int => int 0
  | .float => float .zero
  | .bool => bool false
  | .string => string ""
  | .vector => vector .zero
  | .handle kind => handle kind (-1)

def chars : Value → List Char
  | void => "void".toList
  | int n => Text.digitsOfInt n.toInt
  | float x => Layout.plain.single x
  | bool b => if b then "true".toList else "false".toList
  | string s => s.toList
  | vector v => v.text
  | handle kind id => kind.keyword.toList ++ ':' :: Text.digitsOfInt id.toInt

/-- **Text of a value.** -/
def text (v : Value) : String := String.ofList v.chars

/-- The characters of a literal in a listing: as `chars`, but strings are quoted and a float is marked
as one. -/
def literalChars : Value → List Char
  | string s => Text.quote s.toList
  | float x => Layout.source.single x
  | v => v.chars

@[simp] theorem type_zero (t : ValueType) : (zero t).type = t := by cases t <;> rfl

end Value
end CogMachine
