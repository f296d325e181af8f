import CogMachine.Assembly.Assemble
import CogMachine.Host.Arguments
import CogMachine.Host.Console
import CogMachine.Machine.Instance
import CogMachine.Script.Listing

/-!
# Sessions

A session assembles one source text, runs it with either engine, and resumes it whenever it suspends
until it completes. What the script printed is kept whether or not the run succeeds.
-/

namespace CogMachine.Host

/-- Why a session failed. -/
inductive Failure where
  | fault (f : Fault)
  | assembly (e : AssemblyError)
  | unreadable (path reason : String)
  | badConfig (path : String)
  | argument (complaint : String)
  deriving DecidableEq, Inhabited, Repr

/-- What is wrong with a limits file that is no limits file. -/
def badConfigReason : String := "not a document of limits"

/-- **Message** of a failure; a fault comes with its backtrace. -/
def Failure.message : Failure → String
  | fault f => s!"runtime error: {f.message}{f.backtrace}"
  | assembly e => s!"assembly error: {e.message}"
  | unreadable path reason => s!"could not read '{path}': {reason}"
  | badConfig path => s!"bad config '{path}': {badConfigReason}"
  | argument complaint => s!"invalid argument: {complaint}"

/-- What a completed run reports. -/
structure Report where
  value : Value
  /-- How often the script was resumed. -/
  suspensions : Nat
  deriving DecidableEq, Inhabited, Repr

/-- Everything a session shows. -/
structure Transcript where
  /-- The script's listing, if it was asked for and there is one. -/
  listing : String
  console : Console
  result : Except Failure Report
  deriving Inhabited

/-- How a script is run. -/
structure Session where
  mode : Mode
  entry : Entry
  context : Context
  limits : Limits
  printsListing : Bool
  deriving Inhabited, Repr

namespace Session

/-- The listing shown before the run; a script that cannot be listed is not run. -/
def dump (s : Session) (script : Script) : Except Fault.Cause String :=
  if s.printsListing then script.listing else .ok ""

/-- A transcript of a failure before anything was shown. -/
def failed (f : Failure) : Transcript := ⟨"", .empty, .error f⟩

def runTransient (s : Session) (fuel : Nat) (listing : String) (script : Script) :
    Option Transcript :=
  let verbs := transientVerbs Console.write
  let start : Transient.State Console := ⟨.empty, .empty⟩
  let ended := match s.entry with
    | .message name => Transient.runMessage verbs s.limits fuel script name start
    | .offset n => Transient.run verbs s.limits fuel script n start
  ended.map fun (result, state) =>
    ⟨listing, state.host, match result with
      | .ok v => .ok ⟨v, 0⟩
      | .error f => .error (.fault f)⟩

/-- **Resuming.** Executes a continuation until it no longer suspends; `turns` bounds how often. -/
def resume (s : Session) (fuel : Nat) : Nat → Nat → Machine (Resumable.World Console) →
    Option (Except Fault Report × Console)
  | 0, _, _ => none
  | turns + 1, suspensions, m =>
    match Resumable.execute (resumableVerbs Console.write) s.limits fuel m with
    | none => none
    | some (.error f, m) => some (.error f, m.rest.services)
    | some (.ok (.completed v), m) => some (.ok ⟨v, suspensions⟩, m.rest.services)
    | some (.ok (.suspended _), m) => s.resume fuel turns (suspensions + 1) m

/-- A run with the resumable engine on a fresh instance. -/
def runResumable (s : Session) (fuel : Nat) (listing : String) (script : Script) :
    Option Transcript :=
  let (i, memories) := Instance.create script .empty
  let opened := match s.entry with
    | .message name => i.continuationFor name s.context
    | .offset n => i.continuationAt n s.context
  match opened with
  | .error cause => some ⟨listing, .empty, .error (.fault (.ofCause cause))⟩
  | .ok c =>
    (s.resume fuel fuel 0 ⟨c, ⟨memories, .empty⟩⟩).map fun (result, console) =>
      ⟨listing, console, match result with
        | .ok report => .ok report
        | .error f => .error (.fault f)⟩

def verbId? (mode : Mode) (name : String) : Option VerbId :=
  match mode with
  | .transient => (transientVerbs Console.write).idOf? name
  | .resumable => (resumableVerbs Console.write).idOf? name

/-- **Running a source text.** There is no transcript if the fuel does not suffice. -/
def run (s : Session) (fuel : Nat) (name source : String) : Option Transcript :=
  match assemble name source (verbId? s.mode) with
  | .error e => some (failed (.assembly e))
  | .ok script =>
    match s.dump script with
    | .error cause => some (failed (.fault (.ofCause cause)))
    | .ok listing =>
      match s.mode with
      | .transient => s.runTransient fuel listing script
      | .resumable => s.runResumable fuel listing script

end Session
end CogMachine.Host
