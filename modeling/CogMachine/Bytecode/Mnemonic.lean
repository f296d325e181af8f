/-!
# Mnemonics

A mnemonic names an instruction without its operand. Each has a word for source text and a tag byte
for programs; `all` lists them, and both `ofText?` and `ofTag?` search that list, so a word or a tag
is read exactly if some mnemonic has it.
-/

namespace CogMachine

/-- Instructions that replace the top operand. -/
inductive UnaryOp where
  | neg | lnot
  deriving DecidableEq, Inhabited, Repr

/-- Instructions that replace the top two operands. -/
inductive BinaryOp where
  | add | sub | mul | div | mod
  | bor | band | bxor
  | lor | land
  | eq | ne | gt | ge | lt | le
  deriving DecidableEq, Inhabited, Repr

/-- Instructions that read or write memory. The indexed ones pop an index that is added to their
address. -/
inductive MemoryOp where
  | load | loadIndexed | store | storeIndexed
  deriving DecidableEq, Inhabited, Repr

/-- Instructions that may continue elsewhere. -/
inductive BranchOp where
  /-- Always. -/
  | jump
  /-- In a new frame. -/
  | link
  /-- If the popped operand is true. -/
  | ifTrue
  /-- If the popped operand is false. -/
  | ifFalse
  deriving DecidableEq, Inhabited, Repr

/-- An instruction without its operand. -/
inductive Mnemonic where
  | push
  | dup
  | memory (op : MemoryOp)
  | branch (op : BranchOp)
  /-- Invokes a verb; its result is an operand if `keeps` is set and dropped otherwise. -/
  | call (keeps : Bool)
  | ret
  | unary (op : UnaryOp)
  | binary (op : BinaryOp)
  deriving DecidableEq, Inhabited, Repr

namespace Mnemonic

/-- Every mnemonic, in the order of the tags. -/
def all : List Mnemonic :=
  [push, dup,
    memory .load, memory .loadIndexed, memory .store, memory .storeIndexed,
    branch .jump, branch .link, branch .ifTrue, branch .ifFalse,
    call false, call true, ret,
    unary .neg, binary .add, binary .sub, binary .mul, binary .div, binary .mod,
    binary .bor, binary .band, binary .bxor,
    unary .lnot, binary .lor, binary .land,
    binary .eq, binary .ne, binary .gt, binary .ge, binary .lt, binary .le]

def tag : Mnemonic → UInt8
  | push => 0x01
  | dup => 0x02
  | memory .load => 0x10
  | memory .loadIndexed => 0x11
  | memory .store => 0x12
  | memory .storeIndexed => 0x13
  | branch .jump => 0x20
  | branch .link => 0x21
  | branch .ifTrue => 0x22
  | branch .ifFalse => 0x23
  | call false => 0x30
  | call true => 0x31
  | ret => 0x32
  | unary .neg => 0x40
  | binary .add => 0x41
  | binary .sub => 0x42
  | binary .mul => 0x43
  | binary .div => 0x44
  | binary .mod => 0x45
  | binary .bor => 0x50
  | binary .band => 0x51
  | binary .bxor => 0x52
  | unary .lnot => 0x60
  | binary .lor => 0x61
  | binary .land => 0x62
  | binary .eq => 0x70
  | binary .ne => 0x71
  | binary .gt => 0x72
  | binary .ge => 0x73
  | binary .lt => 0x74
  | binary .le => 0x75

def text : Mnemonic → String
  | push => "push"
  | dup => "dup"
  | memory .load => "load"
  | memory .loadIndexed => "loadi"
  | memory .store => "stor"
  | memory .storeIndexed => "stori"
  | branch .jump => "jmp"
  | branch .link => "jal"
  | branch .ifTrue => "bt"
  | branch .ifFalse => "bf"
  | call false => "call"
  | call true => "callv"
  | ret => "ret"
  | unary .neg => "neg"
  | binary .add => "add"
  | binary .sub => "sub"
  | binary .mul => "mul"
  | binary .div => "div"
  | binary .mod => "mod"
  | binary .bor => "bor"
  | binary .band => "band"
  | binary .bxor => "bxor"
  | unary .lnot => "lnot"
  | binary .lor => "lor"
  | binary .land => "land"
  | binary .eq => "eq"
  | binary .ne => "ne"
  | binary .gt => "gt"
  | binary .ge => "ge"
  | binary .lt => "lt"
  | binary .le => "le"

def ofTag? (t : UInt8) : Option Mnemonic := all.find? (·.tag == t)

/-- The mnemonic with a word, which is spelt in lower case. -/
def ofText? (word : String) : Option Mnemonic := all.find? (·.text == word)

theorem mem_all (m : Mnemonic) : m ∈ all := by
  cases m with
  | push | dup | ret => decide
  | memory op => cases op <;> decide
  | branch op => cases op <;> decide
  | call keeps => cases keeps <;> decide
  | unary op => cases op <;> decide
  | binary op => cases op <;> decide

/-- **Tags read back,** so no two mnemonics share one. -/
@[simp] theorem ofTag?_tag (m : Mnemonic) : ofTag? m.tag = some m :=
  (by decide : ∀ m ∈ all, ofTag? m.tag = some m) m (mem_all m)

/-- A tag that reads as a mnemonic is the tag of that mnemonic. -/
theorem tag_of_ofTag? {t : UInt8} {m : Mnemonic} (h : ofTag? t = some m) : m.tag = t := by
  simpa using List.find?_some h

/-- **Words read back,** so no two mnemonics share one. -/
@[simp] theorem ofText?_text (m : Mnemonic) : ofText? m.text = some m :=
  (by decide : ∀ m ∈ all, ofText? m.text = some m) m (mem_all m)

/-- Whether control never passes to the next instruction, or only if an operand allows it. -/
def isTerminator : Mnemonic → Bool
  | ret | branch .jump | branch .ifTrue | branch .ifFalse => true
  | _ => false

/-- Whether it computes a sum, difference, product, quotient or remainder. -/
def isArithmetic : Mnemonic → Bool
  | binary .add | binary .sub | binary .mul | binary .div | binary .mod => true
  | _ => false

end Mnemonic
end CogMachine
