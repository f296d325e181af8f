import CogMachine.Machine.Resumable

/-!
# System verbs

Five verbs that every resumable host has. They read what the message handed to the calling frame,
write its return register, and suspend it.
-/

namespace CogMachine.Resumable

variable {σ : Type}

def popOperand : Action (Machine (World σ)) Value := Machine.pop

/-- The fault of a verb that needs a calling frame and has none. -/
def noFrame : Fault := .ofCause (.verb "<context>" "no active frame")

/-- **The calling frame.** -/
def callingFrame : Action (Machine (World σ)) Frame := fun m =>
  match m.continuation.top? with
  | none => (.error noFrame, m)
  | some f => (.ok f, m)

def modifyCaller (g : Frame → Frame) : Action (Machine (World σ)) Unit := do
  let _ ← callingFrame
  modify fun m => { m with continuation := m.continuation.modifyTop g }

def getSender : Handler σ := fun _ => do
  let f ← callingFrame
  return .value f.context.sender

def getSource : Handler σ := fun _ => do
  let f ← callingFrame
  return .value f.context.source

/-- The parameter whose number is popped; void for a number that is none. -/
def getParam : Handler σ := fun _ => do
  let v ← popOperand
  let m ← get
  let n := v.asInt
  if n < 0 then return .value .void
  else return .value ((m.continuation.top?.map fun f => f.context.param n.toInt.toNat).getD .void)

def setReturn : Handler σ := fun _ => do
  let v ← popOperand
  modifyCaller fun f => f.setResult v
  return .value .void

def suspend : Handler σ := fun _ => return .suspend

/-- **Registration** of the system verbs. -/
def addSystemVerbs (t : VerbTable (Handler σ)) : VerbTable (Handler σ) :=
  ((((t.add "getsenderref" getSender).add "getsourceref" getSource).add "getparam" getParam).add
    "returnex" setReturn).add "suspend" suspend

end CogMachine.Resumable
