import CogMachine.Machine.Cycle
import CogMachine.Machine.VerbTable

/-!
# The resumable engine

Drives continuations that belong to the host. A verb is lent the whole continuation, all memories
and the host's services; it may suspend the continuation, which the host resumes by executing it
again, or ask to start anew with the continuation as it left it.
-/

namespace CogMachine.Resumable

/-- What is shared by all continuations of a host. -/
structure World (σ : Type) where
  memories : Memories
  services : σ

abbrev Handler (σ : Type) : Type := Bool → Action (Machine (World σ)) Flow

variable {σ : Type}

def invoke (verbs : VerbTable (Handler σ)) (id : VerbId) (keeps : Bool) :
    Action (Machine (World σ)) Flow := fun m =>
  match verbs.get id with
  | .error cause => (.error (.ofCause cause), m)
  | .ok verb => verb.handler keeps m

def engine (verbs : VerbTable (Handler σ)) : Engine (World σ) where
  load w f address := w.memories.load f.memory address
  store f address v := fun ⟨memories, services⟩ =>
    match memories.locate f.memory address with
    | .error cause => (.error (.ofCause cause), ⟨memories, services⟩)
    | .ok (id, i) => (.ok (), ⟨memories.set id i v, services⟩)
  invoke := invoke verbs

/-- How an execution ended without a fault. -/
inductive Answer where
  /-- The outermost call returned this value. -/
  | completed (v : Value)
  /-- A verb suspended; the value is the innermost frame's return register. -/
  | suspended (v : Value)
  deriving DecidableEq, Inhabited, Repr

/-- The answer of a run that a verb suspended: one whose last frame the verb took is over. -/
def suspension (c : Continuation) : Answer :=
  if c.isFinished then .completed .void else .suspended c.result

/-- **Passes.** Runs again after each restart, as often as the budget allows. -/
def passes (verbs : VerbTable (Handler σ)) (limits : Limits) (fuel : Nat) (budget : Nat)
    (m : Machine (World σ)) : Option (Except Fault Answer × Machine (World σ)) :=
  match Machine.run (engine verbs) limits fuel m with
  | none => none
  | some (.error fault, m) => some (.error fault, m)
  | some (.ok (.completed v), m) => some (.ok (.completed v), m)
  | some (.ok .suspended, m) => some (.ok (suspension m.continuation), m)
  | some (.ok .restarting, m) =>
    match budget with
    | 0 =>
      some (.error ((Fault.ofCause (.restartLimit limits.restarts)).withTrace
        m.continuation.trace), m)
    | budget + 1 => passes verbs limits fuel budget m

/-- **Executing** a continuation until it completes, suspends or fails. One that is finished stays as
it is. There is no result if the fuel does not suffice for some pass. -/
def execute (verbs : VerbTable (Handler σ)) (limits : Limits) (fuel : Nat)
    (m : Machine (World σ)) : Option (Except Fault Answer × Machine (World σ)) :=
  if m.continuation.isFinished then some (.ok (.completed .void), m)
  else passes verbs limits fuel limits.restarts m

end CogMachine.Resumable
