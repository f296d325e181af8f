import CogMachine.Bytecode.Mnemonic
import CogMachine.Fault
import CogMachine.Value.Basic

/-!
# Operations on values

What the unary and binary instructions compute. Every operation takes every pair of values; the only
one that can fail is division of integers by zero. Integers are 32 bits wide and wrap around; if an
operand is a float, both are taken as floats.
-/

namespace CogMachine

namespace Value

/-- **Arithmetic** on numbers: in single precision if an operand is a float, else on the integer
coercions. -/
def arithmetic (onInts : Int32 → Int32 → Int32) (onFloats : Single → Single → Single)
    (a b : Value) : Value :=
  if a.isFloat || b.isFloat then .float (onFloats a.asFloat b.asFloat)
  else .int (onInts a.asInt b.asInt)

/-- **Division** of integers, or the fault that the divisor is zero. -/
def divideInts (onInts : Int32 → Int32 → Int32) (a b : Value) :
    Except Fault.Cause Value :=
  if b.asInt = 0 then .error .divisionByZero else .ok (.int (onInts a.asInt b.asInt))

/-- Vectors add componentwise and strings one after the other. -/
def add : Value → Value → Value
  | .vector a, .vector b => .vector (a.add b)
  | .string a, .string b => .string (a ++ b)
  | a, b => .arithmetic (· + ·) (· + ·) a b

def sub : Value → Value → Value
  | .vector a, .vector b => .vector (a.sub b)
  | a, b => .arithmetic (· - ·) (· - ·) a b

/-- A vector is scaled by a number on either side; two vectors have no product but zero. -/
def mul : Value → Value → Value
  | .vector _, .vector _ => .int 0
  | .vector a, b => .vector (a.scale b.asFloat)
  | a, .vector b => .vector (b.scale a.asFloat)
  | a, b => .arithmetic (· * ·) (· * ·) a b

/-- The quotient of two values of which the left is not a vector over a number; integers truncate
toward zero. -/
def divNumbers (a b : Value) : Except Fault.Cause Value :=
  if a.isFloat || b.isFloat then .ok (.float (a.asFloat / b.asFloat))
  else a.divideInts (· / ·) b

def div : Value → Value → Except Fault.Cause Value
  | .vector a, .vector b => divNumbers (.vector a) (.vector b)
  | .vector a, b => .ok (.vector (a.shrink b.asFloat))
  | a, b => divNumbers a b

def mod (a b : Value) : Except Fault.Cause Value :=
  if a.isFloat || b.isFloat then .ok (.float (a.asFloat % b.asFloat))
  else a.divideInts (· % ·) b

/-- **Order of values.** Strings are ordered among themselves by code points; otherwise numbers are
compared, in single precision if an operand is a float. Only a NaN is comparable with nothing. -/
def compare? : Value → Value → Option Ordering
  | .string a, .string b => some (compareOfLessAndEq a b)
  | a, b =>
    if a.isFloat || b.isFloat then a.asFloat.compare? b.asFloat
    else some (compareOfLessAndEq a.asInt b.asInt)

/-- **Equality of values.** Strings, vectors and handles are equal to their like only if their
contents are; otherwise the order decides. -/
def equal : Value → Value → Bool
  | .string a, .string b => a == b
  | .vector a, .vector b => a.equals b
  | .handle k a, .handle l b => k == l && a == b
  | a, b => compare? a b == some .eq

end Value

/-- **Binary instructions;** `a` was pushed before `b`. -/
def BinaryOp.apply (op : BinaryOp) (a b : Value) : Except Fault.Cause Value :=
  match op with
  | .add => .ok (a.add b)
  | .sub => .ok (a.sub b)
  | .mul => .ok (a.mul b)
  | .div => a.div b
  | .mod => a.mod b
  | .bor => .ok (.int (a.asInt ||| b.asInt))
  | .band => .ok (.int (a.asInt &&& b.asInt))
  | .bxor => .ok (.int (a.asInt ^^^ b.asInt))
  | .lor => .ok (.bool (a.isTruthy || b.isTruthy))
  | .land => .ok (.bool (a.isTruthy && b.isTruthy))
  | .eq => .ok (.bool (a.equal b))
  | .ne => .ok (.bool (!a.equal b))
  | .gt => .ok (.bool (a.compare? b == some .gt))
  | .ge => .ok (.bool (a.compare? b == some .gt || a.compare? b == some .eq))
  | .lt => .ok (.bool (a.compare? b == some .lt))
  | .le => .ok (.bool (a.compare? b == some .lt || a.compare? b == some .eq))

/-- Floats and vectors change their sign; of any other value the integer coercion does. -/
def Value.neg : Value → Value
  | .float x => .float (-x)
  | .vector v => .vector v.neg
  | v => .int (-v.asInt)

/-- **Unary instructions.** -/
def UnaryOp.apply (op : UnaryOp) (v : Value) : Value :=
  match op with
  | .neg => v.neg
  | .lnot => .bool (!v.isTruthy)
end CogMachine
