import CogMachine.Bytecode.Program
import CogMachine.Script.Export
import CogMachine.Script.Symbol

/-!
# Scripts

A script is a program with the symbols it keeps in memory and the messages it answers. It never
changes; every instance and every frame that runs it has the same.
-/

namespace CogMachine

/-- A program, its symbols and its messages. -/
structure Script where
  name : String
  program : Program
  symbols : SymbolTable
  exports : ExportTable
  deriving DecidableEq, Inhabited, Repr

namespace Script

def ofProgram (name : String) (program : Program) : Script :=
  ⟨name, program, .empty, .empty⟩

/-- **Entry point** of a message's handler. -/
def entryPoint (s : Script) (message : String) : Except Fault.Cause Nat :=
  match s.exports.offset? message with
  | some offset => .ok offset
  | none => .error (.unknownMessage message)

end Script
end CogMachine
