/-!
# Limits

How deep calls may nest, how many operands there may be after an instruction, and how many restarts
one execution honours.
-/

namespace CogMachine

/-- Limits that both engines enforce. -/
structure Limits where
  callDepth : Nat
  stackDepth : Nat
  restarts : Nat
  deriving DecidableEq, Repr

def Limits.standard : Limits := ⟨256, 4096, 1024⟩

instance : Inhabited Limits := ⟨.standard⟩

end CogMachine
