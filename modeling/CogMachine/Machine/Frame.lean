import CogMachine.Machine.Memory
import CogMachine.Script.Basic

/-!
# Frames

A frame is one active call: the script it runs, the offset of its next instruction, the memory it
uses, what the message handed to it, and what becomes of its result. A nested call shares script,
memory and context with its caller and starts with an empty return register.
-/

namespace CogMachine

/-- What a message hands to its handler: who sent it, what it is about, and four parameters. -/
structure Context where
  sender : Value
  source : Value
  params : Vector Value 4
  deriving DecidableEq, Repr

namespace Context

def empty : Context := ⟨.void, .void, .replicate 4 .void⟩

instance : Inhabited Context := ⟨empty⟩

/-- The context with another parameter; there are four, and a further one is dropped. -/
def withParam (c : Context) (n : Nat) (v : Value) : Context :=
  { c with params := c.params.setIfInBounds n v }

/-- The context with the given parameters from the first on. -/
def withParams (c : Context) (vs : List Value) : Context :=
  vs.zipIdx.foldl (fun c (v, n) => c.withParam n v) c

/-- A parameter, or void past the last one. -/
def param (c : Context) (n : Nat) : Value := c.params[n]?.getD .void

end Context

/-- One active call. -/
structure Frame where
  script : Script
  memory : Option MemoryId
  /-- The offset of the next instruction. -/
  counter : Nat
  context : Context
  /-- The return register, if it was written. -/
  returned : Option Value
  /-- Whether the result goes to the caller's return register. -/
  savesResult : Bool
  /-- Whether the result goes onto the operand stack. -/
  pushesResult : Bool
  /-- The height of the operand stack when the frame was entered. -/
  height : Nat
  deriving DecidableEq, Inhabited, Repr

namespace Frame

/-- A frame at an offset of a script, with nothing handed to it. -/
def enter (script : Script) (counter : Nat) : Frame :=
  ⟨script, none, counter, .empty, none, false, false, 0⟩

/-- The content of the return register; void if it was never written. -/
def result (f : Frame) : Value := f.returned.getD .void

def setResult (f : Frame) (v : Value) : Frame := { f with returned := some v }

/-- **Nested call** at an offset of the same script. -/
def nested (f : Frame) (target : Nat) : Frame :=
  { enter f.script target with memory := f.memory, context := f.context }

def location (f : Frame) : Fault.Location := ⟨f.script.name, f.counter⟩

end Frame
end CogMachine
