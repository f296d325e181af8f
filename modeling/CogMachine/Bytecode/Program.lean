import CogMachine.Bytecode.Instruction

/-!
# Programs

A program is a sequence of bytes; nothing is checked until it is decoded. `instructions` decodes it
from the start, one instruction after the other, up to the first that is malformed. A program is
valid if none is.
-/

namespace CogMachine

/-- Encoded instructions. -/
structure Program where
  bytes : Array UInt8
  deriving DecidableEq, Inhabited, Repr

namespace Program

def ofBytes (bytes : List UInt8) : Program := ⟨bytes.toArray⟩

def length (p : Program) : Nat := p.bytes.size

def isEmpty (p : Program) : Bool := p.bytes.isEmpty

def decode (p : Program) (offset : Nat) : Except Fault.Cause Instruction :=
  Instruction.decode p.bytes offset

/-- **Entry check.** Execution may start at any offset inside the program. -/
def checkAddress (p : Program) (offset : Nat) : Except Fault.Cause Unit :=
  if offset < p.length then .ok () else .error (.addressOutOfRange offset p.length)

/-- The instructions from an offset on. A malformed one is the last. -/
def instructionsFrom (p : Program) (offset : Nat) : List (Except Fault.Cause Instruction) :=
  if _inside : offset < p.length then
    match _decoded : p.decode offset with
    | .error cause => [.error cause]
    | .ok i => .ok i :: p.instructionsFrom i.next
  else []
termination_by p.length - offset
decreasing_by
  have := (Instruction.offset_lt_next _decoded).2
  omega

/-- **Instructions** of the program in order, up to the first malformed one. -/
def instructions (p : Program) : List (Except Fault.Cause Instruction) := p.instructionsFrom 0

/-- **Validity.** The first thing wrong with the program, if there is any. -/
def validate (p : Program) : Except Fault.Cause Unit := p.instructions.forM fun i => i.map fun _ => ()

/-- The listed form of an instruction: its offset in six columns, and its text. -/
def line (i : Instruction) : String :=
  let digits := Text.digitsOfNat i.offset
  String.ofList (List.replicate (6 - digits.length) ' ' ++ digits) ++ ": " ++ i.opcode.text ++ "\n"

/-- **Listing.** A line for each instruction, or the first thing wrong. -/
def listing (p : Program) : Except Fault.Cause String := do
  let is ← p.instructions.mapM id
  return String.join (is.map line)

end Program
end CogMachine
