import CogMachine.Machine.Cycle
import CogMachine.Machine.VerbTable

/-!
# The transient engine

Runs a script to its end in one go. Memory is a heap that all scripts share and that outlives each
run; verbs see the operand stack and the state of the host, and always complete.
-/

namespace CogMachine.Transient

/-- What a verb is lent. -/
structure Lent (ω : Type) where
  operands : Stack Value
  host : ω

abbrev Handler (ω : Type) : Type := Action (Lent ω) Value

/-- What the engine keeps between runs. -/
structure State (ω : Type) where
  heap : Memory
  host : ω

variable {ω : Type}

def Lent.pop : Action (Lent ω) Value := fun s =>
  match s.operands.pop with
  | .error cause => (.error (.ofCause cause), s)
  | .ok (v, operands) => (.ok v, { s with operands })

/-- **Invoking a verb.** It changes the operand stack and the host, and nothing else. -/
def invoke (verbs : VerbTable (Handler ω)) (id : VerbId) : Action (Machine (State ω)) Flow :=
  fun m =>
    match verbs.get id with
    | .error cause => (.error (.ofCause cause), m)
    | .ok verb =>
      let (result, lent) := verb.handler ⟨m.continuation.operands, m.rest.host⟩
      let m : Machine (State ω) :=
        ⟨{ m.continuation with operands := lent.operands }, { m.rest with host := lent.host }⟩
      (result.map Flow.value, m)

/-- Loads and stores go to the heap, whatever the frame. -/
def engine (verbs : VerbTable (Handler ω)) : Engine (State ω) where
  load s _ address := s.heap.load address
  store _ address v := fun ⟨heap, host⟩ =>
    match heap.index address with
    | .error cause => (.error (.ofCause cause), ⟨heap, host⟩)
    | .ok i => (.ok (), ⟨heap.set i v, host⟩)
  invoke id _ := invoke verbs id

/-- **Reserving memory.** The heap grows to what the script needs, and the cells that are new get
the defaults of the symbols there. -/
def reserve (t : SymbolTable) (heap : Memory) : Memory :=
  let grown := heap.ensureSize t.memorySize
  ⟨(t.symbols.filter fun s => heap.size ≤ s.address).foldl
    (fun cells s => cells.setIfInBounds s.address s.default) grown.cells⟩

def valueOf (m : Machine (State ω)) : Halt → Value
  | .completed v => v
  | .suspended | .restarting => m.continuation.result

/-- **Running a script** from an offset. An offset outside the program is refused before anything is
reserved. There is no result if the fuel does not suffice. -/
def run (verbs : VerbTable (Handler ω)) (limits : Limits) (fuel : Nat) (script : Script)
    (entry : Nat) (s : State ω) : Option (Except Fault Value × State ω) :=
  match script.program.checkAddress entry with
  | .error cause => some (.error (.ofCause cause), s)
  | .ok () =>
    let start : Machine (State ω) :=
      ⟨.ofFrame (.enter script entry), { s with heap := reserve script.symbols s.heap }⟩
    (Machine.run (engine verbs) limits fuel start).map fun (result, m) =>
      (result.map (valueOf m), m.rest)

def runMessage (verbs : VerbTable (Handler ω)) (limits : Limits) (fuel : Nat) (script : Script)
    (message : String) (s : State ω) : Option (Except Fault Value × State ω) :=
  match script.entryPoint message with
  | .error cause => some (.error (.ofCause cause), s)
  | .ok entry => run verbs limits fuel script entry s

end CogMachine.Transient
