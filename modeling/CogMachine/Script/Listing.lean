import CogMachine.Script.Basic

/-!
# Listings of scripts

A listing shows a script's name, symbols and messages as comments, and below them the program.
-/

namespace CogMachine.Script

def symbolLine (s : Symbol) : String :=
  let tail := if s.isLocal then " local\n" else "\n"
  s!"; [{s.address}] {s.type.keyword} {s.name} = {s.default.text}" ++ tail

def messageLine (entry : String × Nat) : String := s!"; message {entry.1} @ {entry.2}\n"

/-- **Listing** of a script, or the first thing wrong with its program. -/
def listing (s : Script) : Except Fault.Cause String := do
  let code ← s.program.listing
  return s!"; {s.name}\n" ++ String.join (s.symbols.symbols.map symbolLine) ++
    String.join (s.exports.entries.map messageLine) ++ code

end CogMachine.Script
