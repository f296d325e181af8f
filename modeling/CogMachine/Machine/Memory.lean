import CogMachine.Fault
import CogMachine.Value.Basic

/-!
# Memory

A memory is a row of cells, each holding a value. Addresses are integers, since an index may be
negative; an address outside the row is a fault and changes nothing. Several memories live side by
side in `Memories`, where each is known by an id, so that every frame of an instance reads and
writes the same cells.
-/

namespace CogMachine

/-- The address `base + index`. A base is an unsigned 64-bit number and is read as a signed one. -/
def effectiveAddress (base : Nat) (index : Int32) : Int := Int.bmod base 0x10000000000000000 + index.toInt

/-- A row of cells. -/
structure Memory where
  cells : Array Value
  deriving DecidableEq, Inhabited, Repr

namespace Memory

def empty : Memory := ⟨#[]⟩

/-- That many cells, all void. -/
def ofSize (n : Nat) : Memory := ⟨Array.replicate n .void⟩

def size (m : Memory) : Nat := m.cells.size

def isEmpty (m : Memory) : Bool := m.cells.isEmpty

/-- **Growth.** Void cells are added until there are at least `n`. -/
def ensureSize (m : Memory) (n : Nat) : Memory :=
  ⟨m.cells ++ Array.replicate (n - m.size) .void⟩

def index (m : Memory) (address : Int) : Except Fault.Cause Nat :=
  if 0 ≤ address && address < m.size then .ok address.toNat
  else .error (.memoryOutOfRange address m.size)

def load (m : Memory) (address : Int) : Except Fault.Cause Value :=
  (m.index address).map fun i => m.cells[i]?.getD .void

/-- The memory with another value in a cell; nothing changes if there is no such cell. -/
def set (m : Memory) (i : Nat) (v : Value) : Memory := ⟨m.cells.setIfInBounds i v⟩

def store (m : Memory) (address : Int) (v : Value) : Except Fault.Cause Memory :=
  (m.index address).map fun i => m.set i v

@[simp] theorem size_set (m : Memory) (i : Nat) (v : Value) : (m.set i v).size = m.size := by
  simp [set, size]

/-- The index of a valid address is that address, and there is a cell. -/
theorem index_eq_ok {m : Memory} {address : Int} {i : Nat} :
    m.index address = .ok i ↔ address = i ∧ i < m.size := by
  unfold index
  split
  · rename_i h
    simp only [Bool.and_eq_true, decide_eq_true_eq] at h
    simp only [Except.ok.injEq]
    omega
  · rename_i h
    simp only [Bool.and_eq_true, decide_eq_true_eq] at h
    simp only [reduceCtorEq, false_iff]
    omega

end Memory

/-- The name of a memory. -/
structure MemoryId where
  number : Nat
  deriving DecidableEq, Inhabited, Repr

/-- All memories in use, by id. -/
structure Memories where
  all : Array Memory
  deriving DecidableEq, Inhabited, Repr

namespace Memories

def empty : Memories := ⟨#[]⟩

def get? (ms : Memories) (id : MemoryId) : Option Memory := ms.all[id.number]?

/-- A further memory, and its id. -/
def allocate (ms : Memories) (m : Memory) : MemoryId × Memories :=
  (⟨ms.all.size⟩, ⟨ms.all.push m⟩)

/-- The memory with an id, or the fault that there is none. -/
def bound (ms : Memories) (id? : Option MemoryId) : Except Fault.Cause (MemoryId × Memory) :=
  match id?.bind fun id => (ms.get? id).map fun m => (id, m) with
  | some found => .ok found
  | none => .error .noMemory

def load (ms : Memories) (id? : Option MemoryId) (address : Int) : Except Fault.Cause Value := do
  let (_, m) ← ms.bound id?
  m.load address

def locate (ms : Memories) (id? : Option MemoryId) (address : Int) :
    Except Fault.Cause (MemoryId × Nat) := do
  let (id, m) ← ms.bound id?
  let i ← m.index address
  return (id, i)

/-- Another value in a cell of a memory; nothing changes if there is no such cell. -/
def set (ms : Memories) (id : MemoryId) (i : Nat) (v : Value) : Memories :=
  ⟨ms.all.modify id.number (·.set i v)⟩

def store (ms : Memories) (id? : Option MemoryId) (address : Int) (v : Value) :
    Except Fault.Cause Memories := do
  let (id, i) ← ms.locate id? address
  return ms.set id i v

variable {ms : Memories} {id : MemoryId} {m : Memory}

theorem get?_allocate (ms : Memories) (m : Memory) :
    (ms.allocate m).2.get? (ms.allocate m).1 = some m := by
  simp [allocate, get?]

theorem load_of_get? (h : ms.get? id = some m) (address : Int) :
    ms.load (some id) address = m.load address := by
  simp only [load, bound, Option.bind_some, h]
  rfl

theorem locate_of_get? (h : ms.get? id = some m) (address : Int) :
    ms.locate (some id) address = (m.index address).map fun i => (id, i) := by
  simp only [locate, bound, Option.bind_some, h]
  show (do let i ← m.index address; return (id, i)) = _
  cases m.index address <;> rfl

/-- A memory after another value was put in one of its cells. -/
theorem get?_set_self (ms : Memories) (id : MemoryId) (i : Nat) (v : Value) :
    (ms.set id i v).get? id = (ms.get? id).map (·.set i v) := by
  simp [get?, set, Array.getElem?_modify]

end Memories
end CogMachine
