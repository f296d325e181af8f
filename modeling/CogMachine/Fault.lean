import CogMachine.Text.Numeral

/-!
# Faults

A fault ends a run. It has a cause, and a trace of the calls that were live when it was raised,
outermost first. `withTrace` never replaces a trace that is there already, so the innermost handler
decides what is reported.
-/

namespace CogMachine

namespace Fault

/-- Why a run ended in a fault. -/
inductive Cause where
  /-- A tag byte that is no instruction. -/
  | unknownOpcode (tag : UInt8) (offset : Nat)
  /-- A byte that is no kind of literal or no kind of handle. -/
  | unknownLiteral (tag : UInt8) (offset : Nat)
  /-- An instruction whose operands run past the end of the program; the offset is its start. -/
  | truncatedInstruction (offset : Nat)
  /-- A string literal that is not UTF-8. -/
  | invalidString (offset : Nat)
  /-- An offset outside the program. -/
  | addressOutOfRange (address length : Nat)
  | stackUnderflow
  | stackOverflow (limit : Nat)
  | callStackOverflow (limit : Nat)
  | unknownVerb (id : Int32)
  | memoryOutOfRange (address : Int) (size : Nat)
  /-- A frame without a memory tried to use it. -/
  | noMemory
  | divisionByZero
  | unknownMessage (name : String)
  | restartLimit (limit : Nat)
  /-- A verb refused to do its work. -/
  | verb (name message : String)
  deriving DecidableEq, Inhabited, Repr

/-- A byte as `0x` and two hexadecimal digits. -/
def hexByte (b : UInt8) : String :=
  let digits := Text.hexOfNat b.toNat
  String.ofList ('0' :: 'x' :: (List.replicate (2 - digits.length) '0' ++ digits))

/-- **Message** of a cause. -/
def Cause.message : Cause → String
  | unknownOpcode tag offset => s!"unknown opcode tag {hexByte tag} at offset {offset}"
  | unknownLiteral tag offset => s!"unknown literal tag {hexByte tag} at offset {offset}"
  | truncatedInstruction offset => s!"truncated instruction at offset {offset}"
  | invalidString offset => s!"invalid string literal at offset {offset}"
  | addressOutOfRange address length =>
    s!"address {address} is outside the instruction stream (length {length})"
  | stackUnderflow => "operand stack underflow"
  | stackOverflow limit => s!"operand stack exceeded {limit} values"
  | callStackOverflow limit => s!"call stack exceeded {limit} frames"
  | unknownVerb id => s!"unknown verb id {id}"
  | memoryOutOfRange address size => s!"memory address {address} out of range (size {size})"
  | noMemory => "frame has no bound memory space"
  | divisionByZero => "integer division by zero"
  | unknownMessage name => s!"script does not export message '{name}'"
  | restartLimit limit => s!"restart limit of {limit} exceeded"
  | verb name message => s!"verb '{name}' failed: {message}"

/-- One live call: the script it runs and an offset in that script's program. -/
structure Location where
  script : String
  position : Nat
  deriving DecidableEq, Inhabited, Repr

/-- A location as script, plus sign, offset. -/
def Location.text (l : Location) : String := s!"{l.script}+{l.position}"

end Fault

/-- A fault: its cause and the calls live at that moment, outermost first. -/
structure Fault where
  cause : Fault.Cause
  trace : List Fault.Location
  deriving DecidableEq, Inhabited, Repr

namespace Fault

def ofCause (cause : Cause) : Fault := ⟨cause, []⟩

/-- **Tracing.** Attaches a trace unless the fault has one. -/
def withTrace (f : Fault) (trace : List Location) : Fault :=
  if f.trace.isEmpty then { f with trace := trace } else f

def message (f : Fault) : String := f.cause.message

/-- **Backtrace.** A numbered line for each live call, innermost first, each after a newline. -/
def backtrace (f : Fault) : String :=
  String.join (f.trace.reverse.zipIdx.map fun (l, i) => s!"\n  #{i}: {l.text}")

end Fault
end CogMachine
