/-!
# Errors of assembly

Why a program could not be put together, from source text or step by step. Errors found in a line of
source carry its number, counted from one.
-/

namespace CogMachine

/-- Why there is no program. -/
inductive AssemblyError where
  /-- A label is used but stands nowhere. -/
  | unresolvedLabel (name : String)
  | duplicateLabel (line : Nat) (name : String)
  | unknownMnemonic (line : Nat) (word : String)
  /-- An operand is missing, malformed or not expected. -/
  | badOperand (line : Nat) (complaint : String)
  | unknownVerb (line : Nat) (name : String)
  | unknownSymbol (line : Nat) (name : String)
  | unknownType (line : Nat) (name : String)
  | duplicateSymbol (name : String)
  | duplicateMessage (name : String)
  | unknownDirective (line : Nat) (name : String)
  | addressOverflow (address : Nat)
  deriving DecidableEq, Inhabited, Repr

/-- **Message** of an error. -/
def AssemblyError.message : AssemblyError → String
  | unresolvedLabel name => s!"label '{name}' is referenced but never placed"
  | duplicateLabel line name => s!"line {line}: label '{name}' is already defined"
  | unknownMnemonic line word => s!"line {line}: unknown mnemonic '{word}'"
  | badOperand line complaint => s!"line {line}: {complaint}"
  | unknownVerb line name => s!"line {line}: unknown verb '{name}'"
  | unknownSymbol line name => s!"line {line}: unknown symbol '{name}'"
  | unknownType line name => s!"line {line}: unknown type '{name}'"
  | duplicateSymbol name => s!"symbol '{name}' is already declared"
  | duplicateMessage name => s!"message '{name}' is already exported"
  | unknownDirective line name => s!"line {line}: unknown directive '{name}'"
  | addressOverflow address => s!"address {address} does not fit in 32 bits"

end CogMachine
