import CogMachine.Assembly.Error

/-!
# Exports

A script answers messages: the export table gives the offset of each message's handler. It is kept
in the order of the names, so a listing does not depend on the order of the source.
-/

namespace CogMachine

/-- Messages and the offsets of their handlers, in the order of the names. -/
structure ExportTable where
  entries : List (String × Nat)
  deriving DecidableEq, Inhabited, Repr

namespace ExportTable

def empty : ExportTable := ⟨[]⟩

def offset? (t : ExportTable) (name : String) : Option Nat := t.entries.lookup name

def size (t : ExportTable) : Nat := t.entries.length

def isEmpty (t : ExportTable) : Bool := t.entries.isEmpty

/-- The entry put in front of the first one with a larger name. -/
def insertSorted (name : String) (offset : Nat) : List (String × Nat) → List (String × Nat)
  | [] => [(name, offset)]
  | entry :: rest =>
    if name < entry.1 then (name, offset) :: entry :: rest
    else entry :: insertSorted name offset rest

/-- **Insertion** in its place; a message has one handler. -/
def insert (t : ExportTable) (name : String) (offset : Nat) : Except AssemblyError ExportTable :=
  if (t.offset? name).isSome then .error (.duplicateMessage name)
  else .ok ⟨insertSorted name offset t.entries⟩

end ExportTable
end CogMachine
