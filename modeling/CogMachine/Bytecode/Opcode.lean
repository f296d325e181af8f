import CogMachine.Bytecode.Literal
import CogMachine.Bytecode.Mnemonic

/-!
# Opcodes

An opcode is a mnemonic with its operand: a literal, an address of memory or of the program, or the
id of a verb. `encode` writes it as a tag and the operand, `text` as a line of a listing.
-/

namespace CogMachine

/-- The number under which a host registered a verb. -/
structure VerbId where
  number : Int32
  deriving DecidableEq, Inhabited, Repr

def VerbId.text (v : VerbId) : String := s!"#{v.number}"

/-- An instruction with its operand. -/
inductive Opcode where
  | push (value : Value)
  | dup
  | memory (op : MemoryOp) (address : Nat)
  | branch (op : BranchOp) (target : Nat)
  | call (keeps : Bool) (verb : VerbId)
  | ret
  | unary (op : UnaryOp)
  | binary (op : BinaryOp)
  deriving DecidableEq, Inhabited, Repr

namespace Opcode

def mnemonic : Opcode → Mnemonic
  | push _ => .push
  | dup => .dup
  | memory op _ => .memory op
  | branch op _ => .branch op
  | call keeps _ => .call keeps
  | ret => .ret
  | unary op => .unary op
  | binary op => .binary op

/-- **Bare opcodes.** The opcode of a mnemonic that takes no operand. -/
def bare? : Mnemonic → Option Opcode
  | .dup => some dup
  | .ret => some ret
  | .unary op => some (unary op)
  | .binary op => some (binary op)
  | .push | .memory _ | .branch _ | .call _ => none

def target? : Opcode → Option Nat
  | branch _ target => some target
  | _ => none

/-- The address in memory or in the program that the opcode carries. -/
def address? : Opcode → Option Nat
  | memory _ address => some address
  | branch _ target => some target
  | _ => none

/-- The bytes of the operand; addresses are kept modulo `2^32`. -/
def operandBytes : Opcode → List UInt8
  | push value => Literal.encode value
  | memory _ address => wordBytes address
  | branch _ target => wordBytes target
  | call _ verb => Literal.intBytes verb.number
  | dup | ret | unary _ | binary _ => []

/-- **Encoding:** the tag, then the operand. -/
def encode (o : Opcode) : List UInt8 := o.mnemonic.tag :: o.operandBytes

def encodedLength : Opcode → Nat
  | push value => 1 + Literal.encodedLength value
  | memory _ _ => 5
  | branch _ _ => 5
  | call _ _ => 5
  | dup | ret | unary _ | binary _ => 1

def operandText : Opcode → Option String
  | push value => some (String.ofList value.literalChars)
  | memory _ address => some (String.ofList (Text.digitsOfNat address))
  | branch _ target => some (String.ofList (Text.digitsOfNat target))
  | call _ verb => some verb.text
  | dup | ret | unary _ | binary _ => none

/-- **Text** of an opcode: the mnemonic, and after a space the operand. -/
def text (o : Opcode) : String :=
  match o.operandText with
  | some operand => s!"{o.mnemonic.text} {operand}"
  | none => o.mnemonic.text

theorem length_encode (o : Opcode) : o.encode.length = o.encodedLength := by
  cases o with
  | push v => simp [encode, operandBytes, encodedLength, Literal.length_encode, Nat.add_comm]
  | _ => simp [encode, operandBytes, encodedLength, Literal.intBytes]

theorem encodedLength_pos (o : Opcode) : 0 < o.encodedLength := by
  rw [← length_encode]; simp [encode]

end Opcode
end CogMachine
