import CogMachine.Machine.Continuation
import CogMachine.Machine.Limits
import CogMachine.Machine.Operation

/-!
# The cycle

One cycle decodes the instruction at the innermost frame's counter, moves the counter past it and
carries it out. Moving first means that a verb which suspends leaves the continuation at the next
instruction.

- `Engine` is what differs between engines: where loads and stores go, and what a call of a verb does.
- `cycle` gives the next state of a `Machine`, and with it why the run stops, if it does.
- `run` repeats cycles. Its fuel bounds their number, and running out of it is no result.

A fault is traced to the frames that are live when it is raised, with the frame that was executing at
the offset of its instruction.
-/

namespace CogMachine

/-- What a verb asks for when it is done. -/
inductive Flow where
  /-- Go on; a call that keeps results gets this value. -/
  | value (v : Value)
  /-- Give the continuation back to the host. -/
  | suspend
  /-- Start anew with the continuation as the verb left it. -/
  | restart
  deriving DecidableEq, Inhabited, Repr

/-- A continuation, and whatever else an engine keeps. -/
structure Machine (S : Type) where
  continuation : Continuation
  rest : S

/-- A computation that changes a state and may fail; changes made before a failure stay. -/
abbrev Action (S α : Type) : Type := ExceptT Fault (StateM S) α

/-- What differs between engines. -/
structure Engine (S : Type) where
  load : S → Frame → Int → Except Fault.Cause Value
  store : Frame → Int → Value → Action S Unit
  invoke : VerbId → Bool → Action (Machine S) Flow

/-- Why a run stopped. -/
inductive Halt where
  | completed (v : Value)
  | suspended
  | restarting
  deriving DecidableEq, Inhabited, Repr

namespace Machine

variable {S : Type}

/-- Fails, changing nothing. -/
def fault {α : Type} (cause : Fault.Cause) : Action S α := fun s => (.error (.ofCause cause), s)

def lift {α : Type} : Except Fault.Cause α → Action S α
  | .ok a => fun s => (.ok a, s)
  | .error cause => fault cause

def inRest {α : Type} (a : Action S α) : Action (Machine S) α := fun ⟨continuation, rest⟩ =>
  let (result, rest) := a rest
  (result, ⟨continuation, rest⟩)

def pop : Action (Machine S) Value := fun m =>
  match m.continuation.operands.pop with
  | .error cause => (.error (.ofCause cause), m)
  | .ok (v, operands) => (.ok v, { m with continuation := { m.continuation with operands } })

def push (v : Value) : Action (Machine S) Unit := fun m =>
  (.ok (), { m with continuation :=
    { m.continuation with operands := m.continuation.operands.push v } })

def top : Action (Machine S) Frame := fun m =>
  match m.continuation.top? with
  | none => (.error (.ofCause .stackUnderflow), m)
  | some f => (.ok f, m)

def jump (target : Nat) : Action (Machine S) Unit := fun m =>
  (.ok (), { m with continuation := m.continuation.modifyTop fun f => { f with counter := target } })

def load (e : Engine S) (address : Int) : Action (Machine S) Unit := do
  let m ← get
  let f ← top
  let v ← lift (e.load m.rest f address)
  push v

def store (e : Engine S) (address : Int) (v : Value) : Action (Machine S) Unit := do
  let f ← top
  inRest (e.store f address v)

/-- Branches to a target. A call is refused when the frames are at their limit. -/
def branch (limits : Limits) (target : Nat) : BranchOp → Action (Machine S) Unit
  | .jump => jump target
  | .link => do
    let m ← get
    if limits.callDepth ≤ m.continuation.depth then fault (.callStackOverflow limits.callDepth)
    else
      let f ← top
      set { m with continuation := m.continuation.pushFrame (f.nested target) }
  | .ifTrue => do
    let v ← pop
    if v.isTruthy then jump target
  | .ifFalse => do
    let v ← pop
    if !v.isTruthy then jump target

/-- Memory instructions. An index is popped before the value to store. -/
def access (e : Engine S) (address : Nat) : MemoryOp → Action (Machine S) Unit
  | .load => load e address
  | .loadIndexed => do
    let index ← pop
    load e (effectiveAddress address index.asInt)
  | .store => do
    let v ← pop
    store e address v
  | .storeIndexed => do
    let index ← pop
    let v ← pop
    store e (effectiveAddress address index.asInt) v

/-- Calls a verb; its value is kept as an operand or dropped. -/
def call (e : Engine S) (keeps : Bool) (verb : VerbId) : Action (Machine S) (Option Halt) := do
  match ← e.invoke verb keeps with
  | .value v =>
    if keeps then push v
    return none
  | .suspend => return some .suspended
  | .restart => return some .restarting

def retire : Action (Machine S) (Option Halt) := fun m =>
  let (result, continuation) := m.continuation.retire
  (.ok (result.map .completed), { m with continuation })

/-- **One instruction,** and why the run stops with it, if it does. -/
def perform (e : Engine S) (limits : Limits) : Opcode → Action (Machine S) (Option Halt)
  | .push v => do
    push v
    return none
  | .dup => do
    let m ← get
    let v ← lift m.continuation.operands.peek
    push v
    return none
  | .memory op address => do
    access e address op
    return none
  | .branch op target => do
    branch limits target op
    return none
  | .call keeps verb => call e keeps verb
  | .ret => retire
  | .unary op => do
    let v ← pop
    push (op.apply v)
    return none
  | .binary op => do
    let b ← pop
    let a ← pop
    let v ← lift (op.apply a b)
    push v
    return none

/-- **Tracing.** The fault with the trace of the live frames, in which the frame at `slot`, counted
from the outermost, stands at `position` if it is still live. -/
def traced (f : Fault) (slot position : Nat) (c : Continuation) : Fault :=
  f.withTrace (c.trace.modify slot fun l => { l with position })

/-- What a cycle ends with. -/
inductive Outcome where
  | next
  | halted (h : Halt)
  | faulted (f : Fault)
  deriving DecidableEq, Inhabited, Repr

/-- **One cycle.** A run without frames is complete. After an instruction that does not stop the run
the operands must be within their limit. -/
def cycle (e : Engine S) (limits : Limits) (m : Machine S) : Outcome × Machine S :=
  match m.continuation.frames.pop? with
  | none => (.halted (.completed .void), m)
  | some (f, callers) =>
    match f.script.program.decode f.counter with
    | .error cause =>
      (.faulted (traced (.ofCause cause) callers.height f.counter m.continuation), m)
    | .ok i =>
      let frames := callers.push { f with counter := i.next }
      match perform e limits i.opcode { m with continuation := { m.continuation with frames } } with
      | (.error fault, m) =>
        (.faulted (traced fault callers.height f.counter m.continuation), m)
      | (.ok (some h), m) => (.halted h, m)
      | (.ok none, m) =>
        if limits.stackDepth < m.continuation.operands.height then
          (.faulted (traced (.ofCause (.stackOverflow limits.stackDepth)) callers.height f.counter
            m.continuation), m)
        else (.next, m)

/-- **Running.** Cycles until one stops the run, at most as many as there is fuel. -/
def run (e : Engine S) (limits : Limits) : Nat → Machine S → Option (Except Fault Halt × Machine S)
  | 0, _ => none
  | fuel + 1, m =>
    match cycle e limits m with
    | (.next, m) => run e limits fuel m
    | (.halted h, m) => some (.ok h, m)
    | (.faulted f, m) => some (.error f, m)

end Machine
end CogMachine
