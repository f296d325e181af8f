import CogMachine.Assembly.Error
import CogMachine.Bytecode.Program

/-!
# Building programs

A builder encodes instructions in order. Branches may name labels, which are placed before or after
their use: such a branch is encoded with a zero for its target, and the place of its operand is kept
until `finish` writes the offset of the label there. An address that no operand can hold is kept as
well, and reported at the end.
-/

namespace CogMachine

/-- A label of a builder, by its number in the order of allocation. -/
structure Label where
  number : Nat
  deriving DecidableEq, Inhabited, Repr

def Label.text (l : Label) : String := s!"L{l.number}"

/-- An operand still to be written: where it stands, and the label whose offset goes there. -/
structure Fixup where
  position : Nat
  label : Label
  deriving DecidableEq, Inhabited, Repr

/-- A program under construction: its bytes so far, where each label stands, the operands still to be
written, and the first address too large for an operand. -/
structure Builder where
  bytes : Array UInt8
  labels : Array (Option Nat)
  fixups : Array Fixup
  overflow : Option Nat
  deriving DecidableEq, Inhabited, Repr

namespace Builder

def empty : Builder := ⟨#[], #[], #[], none⟩

/-- **Offset of the next instruction.** -/
def offset (b : Builder) : Nat := b.bytes.size

/-- A new label, standing nowhere. Its number is the count of the labels before it, whatever that is: a label
number of 32 bits is the same one only for the first `2^32` labels, and would name the first label again for the
one behind them. -/
def allocate (b : Builder) : Label × Builder :=
  (⟨b.labels.size⟩, { b with labels := b.labels.push none })

def position? (b : Builder) (l : Label) : Option Nat := (b.labels[l.number]?).bind id

/-- **Placing.** Makes a label stand at the current offset. A label that stands somewhere already
does not move, and a label that was never allocated cannot be placed. -/
def place (b : Builder) (l : Label) : Except AssemblyError Builder :=
  match b.labels[l.number]? with
  | none => .error (.unresolvedLabel l.text)
  | some (some _) => .error (.duplicateLabel 0 l.text)
  | some none => .ok { b with labels := b.labels.setIfInBounds l.number (some b.offset) }

def append (b : Builder) (o : Opcode) : Builder :=
  { b with
    bytes := b.bytes ++ o.encode.toArray
    overflow := b.overflow.or (o.address?.filter (wordLimit ≤ ·)) }

/-- Appends a branch to a label. Its operand is the last word. -/
def appendBranch (b : Builder) (op : BranchOp) (l : Label) : Builder :=
  let bytes := b.bytes ++ (Opcode.branch op 0).encode.toArray
  { b with bytes := bytes, fixups := b.fixups.push ⟨bytes.size - 4, l⟩ }

def patch (b : Builder) (bytes : Array UInt8) (f : Fixup) : Except AssemblyError (Array UInt8) :=
  match b.position? f.label with
  | none => .error (.unresolvedLabel f.label.text)
  | some target =>
    if target < wordLimit then .ok (overwrite bytes f.position (wordBytes target))
    else .error (.addressOverflow target)

/-- **Finishing.** The first address too large for an operand is reported before any label that
stands nowhere. -/
def finish (b : Builder) : Except AssemblyError Program :=
  match b.overflow with
  | some address => .error (.addressOverflow address)
  | none => (b.fixups.toList.foldlM b.patch b.bytes).map Program.mk

/-- Appending an opcode moves the offset by its length. -/
@[simp] theorem offset_append (b : Builder) (o : Opcode) :
    (b.append o).offset = b.offset + o.encodedLength := by
  simp [offset, append, Opcode.length_encode]

@[simp] theorem offset_appendBranch (b : Builder) (op : BranchOp) (l : Label) :
    (b.appendBranch op l).offset = b.offset + 5 := by
  simp [offset, appendBranch, Opcode.length_encode, Opcode.encodedLength]

end Builder
end CogMachine
