import CogMachine.Assembly.Error
import CogMachine.Bytecode.Word
import CogMachine.Value.Basic

/-!
# Symbols

A script declares named cells of memory, each with a type, an address and a default. The table keeps
the order of declaration and refuses a name twice and an address that needs more than 32 bits.
`defaultCells` is the memory that a fresh instance starts with.
-/

namespace CogMachine

/-- A declared cell. -/
structure Symbol where
  name : String
  type : ValueType
  address : Nat
  /-- What the cell holds at first. -/
  default : Value
  /-- Whether the cell is private to the script rather than open to the level designer. -/
  isLocal : Bool
  /-- The id by which an entity's events name the cell. -/
  link : Option Int32
  /-- Which events the cell answers to. -/
  mask : UInt32
  /-- A note for the level designer. -/
  description : Option String
  deriving DecidableEq, Inhabited, Repr

/-- The symbol that holds the zero of its type and has nothing optional set. -/
def Symbol.ofType (name : String) (type : ValueType) (address : Nat) : Symbol :=
  ⟨name, type, address, .zero type, false, none, 0, none⟩

/-- Symbols in the order of declaration. -/
structure SymbolTable where
  symbols : List Symbol
  deriving DecidableEq, Inhabited, Repr

namespace SymbolTable

def empty : SymbolTable := ⟨[]⟩

def get? (t : SymbolTable) (name : String) : Option Symbol :=
  t.symbols.find? (·.name == name)

def size (t : SymbolTable) : Nat := t.symbols.length

def isEmpty (t : SymbolTable) : Bool := t.symbols.isEmpty

/-- **Insertion** at the end. An address too large is reported before a name that is taken. -/
def insert (t : SymbolTable) (s : Symbol) : Except AssemblyError SymbolTable :=
  if wordLimit ≤ s.address then .error (.addressOverflow s.address)
  else if (t.get? s.name).isSome then .error (.duplicateSymbol s.name)
  else .ok ⟨t.symbols ++ [s]⟩

/-- **Memory size.** One more than the largest address, so that every symbol has its cell. -/
def memorySize (t : SymbolTable) : Nat := t.symbols.foldl (fun n s => max n (s.address + 1)) 0

/-- Inserts a symbol at the first address above all others, which is returned. -/
def declare (t : SymbolTable) (name : String) (type : ValueType) :
    Except AssemblyError (Nat × SymbolTable) := do
  let address := t.memorySize
  let t ← t.insert (.ofType name type address)
  return (address, t)

/-- The table with another default for a name, if the name is declared. -/
def setDefault? (t : SymbolTable) (name : String) (value : Value) : Option SymbolTable :=
  if (t.get? name).isSome then
    some ⟨t.symbols.map fun s => if s.name = name then { s with default := value } else s⟩
  else none

/-- **Default memory.** Each symbol's default at its address, the last declared symbol winning, and
void in the gaps. -/
def defaultCells (t : SymbolTable) : Array Value :=
  t.symbols.foldl (fun cells s => cells.setIfInBounds s.address s.default)
    (Array.replicate t.memorySize .void)

variable {t t' : SymbolTable} {s : Symbol} {name : String}

theorem isSome_get? : (t.get? name).isSome = true ↔ ∃ s ∈ t.symbols, s.name = name := by
  simp [get?]

/-- **What an insertion can come to.** The address is looked at first. -/
theorem insert_outcome (t : SymbolTable) (s : Symbol) :
    wordLimit ≤ s.address ∧ t.insert s = .error (.addressOverflow s.address) ∨
    s.address < wordLimit ∧ (∃ s' ∈ t.symbols, s'.name = s.name) ∧
      t.insert s = .error (.duplicateSymbol s.name) ∨
    s.address < wordLimit ∧ (∀ s' ∈ t.symbols, s'.name ≠ s.name) ∧ t.insert s = .ok ⟨t.symbols ++ [s]⟩ := by
  unfold insert
  rcases Nat.lt_or_ge s.address wordLimit with hfits | hlarge
  · rw [if_neg (Nat.not_le.mpr hfits)]
    by_cases htaken : ∃ s' ∈ t.symbols, s'.name = s.name
    · rw [if_pos (isSome_get?.mpr htaken)]
      exact .inr (.inl ⟨hfits, htaken, rfl⟩)
    · rw [if_neg (mt isSome_get?.mp htaken)]
      exact .inr (.inr ⟨hfits, fun s' hs' heq => htaken ⟨s', hs', heq⟩, rfl⟩)
  · rw [if_pos hlarge]
    exact .inl ⟨hlarge, rfl⟩

theorem insert_eq_ok (h : t.insert s = .ok t') :
    s.address < wordLimit ∧ (∀ s' ∈ t.symbols, s'.name ≠ s.name) ∧ t' = ⟨t.symbols ++ [s]⟩ := by
  rcases insert_outcome t s with ⟨-, hout⟩ | ⟨-, -, hout⟩ | ⟨hfits, hfree, hout⟩
  · cases h.symm.trans hout
  · cases h.symm.trans hout
  · exact ⟨hfits, hfree, Except.ok.inj (h.symm.trans hout)⟩

end SymbolTable
end CogMachine
