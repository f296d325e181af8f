import CogMachine.Machine.Continuation

/-!
# Instances

An instance is a live copy of a script: the script and a memory of its own, seeded with the defaults
of the symbols. All continuations opened on an instance share that memory.
-/

namespace CogMachine

/-- A script bound to a memory. -/
structure Instance where
  script : Script
  memory : MemoryId
  deriving DecidableEq, Inhabited, Repr

namespace Instance

/-- **Instantiation** allocates the memory. -/
def create (script : Script) (ms : Memories) : Instance × Memories :=
  let (id, ms) := ms.allocate ⟨script.symbols.defaultCells⟩
  (⟨script, id⟩, ms)

def symbolValue? (i : Instance) (ms : Memories) (name : String) : Option Value := do
  let s ← i.script.symbols.get? name
  let m ← ms.get? i.memory
  m.cells[s.address]?

/-- **A frame** at an offset of the program. -/
def frameAt (i : Instance) (entry : Nat) (context : Context) : Except Fault.Cause Frame := do
  i.script.program.checkAddress entry
  return { Frame.enter i.script entry with memory := some i.memory, context := context }

def frameFor (i : Instance) (message : String) (context : Context) : Except Fault.Cause Frame := do
  let entry ← i.script.entryPoint message
  i.frameAt entry context

def continuationAt (i : Instance) (entry : Nat) (context : Context) :
    Except Fault.Cause Continuation :=
  (i.frameAt entry context).map .ofFrame

def continuationFor (i : Instance) (message : String) (context : Context) :
    Except Fault.Cause Continuation :=
  (i.frameFor message context).map .ofFrame

end Instance
end CogMachine
