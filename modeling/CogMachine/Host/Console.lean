import CogMachine.Machine.SystemVerbs
import CogMachine.Machine.Transient

/-!
# Consoles

A console keeps the lines that were printed. A host offers two verbs for printing: `print` writes the
popped value, `printint` its integer coercion, each on a line of its own. The host's state may hold more
than a console, so the verbs are told by `write` how it takes a line.
-/

namespace CogMachine.Host

/-- Lines that were printed, latest first. -/
structure Console where
  latestFirst : List String
  deriving DecidableEq, Inhabited, Repr

namespace Console

def empty : Console := ⟨[]⟩

def write (line : String) (c : Console) : Console := ⟨line :: c.latestFirst⟩

def lines (c : Console) : List String := c.latestFirst.reverse

end Console

/-! ## Printing verbs -/

/-- The line that `printint` writes. -/
def intLine (v : Value) : String := String.ofList (Text.digitsOfInt v.asInt.toInt)

def transientPrint {ω : Type} (write : String → ω → ω) (line : Value → String) :
    Action (Transient.Lent ω) Value := do
  let v ← Transient.Lent.pop
  modify fun s => { s with host := write (line v) s.host }
  return .void

def resumablePrint {σ : Type} (write : String → σ → σ) (line : Value → String) :
    Resumable.Handler σ := fun _ => do
  let v ← Resumable.popOperand
  modify fun m => { m with rest := { m.rest with services := write (line v) m.rest.services } }
  return .value .void

/-- **Verbs of the transient host.** -/
def transientVerbs {ω : Type} (write : String → ω → ω) : VerbTable (Transient.Handler ω) :=
  (VerbTable.empty.add "print" (transientPrint write Value.text)).add "printint"
    (transientPrint write intLine)

/-- **Verbs of the resumable host:** the system verbs, then the printing ones. -/
def resumableVerbs {σ : Type} (write : String → σ → σ) : VerbTable (Resumable.Handler σ) :=
  ((Resumable.addSystemVerbs VerbTable.empty).add "print" (resumablePrint write Value.text)).add
    "printint" (resumablePrint write intLine)

end CogMachine.Host
