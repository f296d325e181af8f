import CogMachine.Bytecode.Word
import CogMachine.Fault
import CogMachine.Value.Basic

/-!
# Literals in a program

A literal is a tag byte and a payload: nothing, a word, a byte, three words, a counted string, or a
kind and a word. `Literal.encode` writes one; `Literal.decode` reads one at an offset and gives the
offset after it. Whatever is missing at the end of the bytes is reported at `start`, the offset of
the instruction the literal belongs to.
-/

namespace CogMachine.Literal

def stringBytes (s : String) : List UInt8 := s.toUTF8.data.toList

/-- The string that bytes spell in UTF-8, if they do. -/
def stringOfBytes? (bytes : List UInt8) : Option String := String.fromUTF8? ⟨bytes.toArray⟩

def intBytes (n : Int32) : List UInt8 := wordBytes n.toUInt32.toNat

def intOfBytes (bytes : List UInt8) : Int32 := (UInt32.ofNat (wordValue bytes)).toInt32

def singleBytes (x : Single) : List UInt8 := wordBytes x.bits.toNat

def singleOfBytes (bytes : List UInt8) : Single := ⟨UInt32.ofNat (wordValue bytes)⟩

/-- **Encoding** of a literal. A string's length is kept modulo `2^32`. -/
def encode : Value → List UInt8
  | .void => [0]
  | .int n => 1 :: intBytes n
  | .float x => 2 :: singleBytes x
  | .bool b => [3, if b then 1 else 0]
  | .string s => 4 :: (wordBytes s.utf8ByteSize ++ stringBytes s)
  | .vector v => 5 :: (singleBytes v.x ++ singleBytes v.y ++ singleBytes v.z)
  | .handle kind id => 6 :: kind.toByte :: intBytes id

def encodedLength : Value → Nat
  | .void => 1
  | .int _ => 5
  | .float _ => 5
  | .bool _ => 2
  | .string s => 5 + s.utf8ByteSize
  | .vector _ => 13
  | .handle _ _ => 6

/-- The bytes that an operand needs, or the complaint that they are missing. -/
def take (bytes : Array UInt8) (start offset n : Nat) : Except Fault.Cause (List UInt8) :=
  match slice? bytes offset n with
  | some operand => .ok operand
  | none => .error (.truncatedInstruction start)

/-- One byte, or the complaint that it is missing. -/
def takeByte (bytes : Array UInt8) (start offset : Nat) : Except Fault.Cause UInt8 :=
  match bytes[offset]? with
  | some b => .ok b
  | none => .error (.truncatedInstruction start)

/-- **Decoding** of the literal at an offset, with the offset after it. -/
def decode (bytes : Array UInt8) (start offset : Nat) : Except Fault.Cause (Value × Nat) := do
  let tag ← takeByte bytes start offset
  match tag with
  | 0 => return (.void, offset + 1)
  | 1 =>
    let word ← take bytes start (offset + 1) 4
    return (.int (intOfBytes word), offset + 5)
  | 2 =>
    let word ← take bytes start (offset + 1) 4
    return (.float (singleOfBytes word), offset + 5)
  | 3 =>
    let b ← takeByte bytes start (offset + 1)
    return (.bool (b != 0), offset + 2)
  | 4 =>
    let word ← take bytes start (offset + 1) 4
    let length := wordValue word
    let text ← take bytes start (offset + 5) length
    match stringOfBytes? text with
    | some s => return (.string s, offset + 5 + length)
    | none => throw (.invalidString offset)
  | 5 =>
    let x ← take bytes start (offset + 1) 4
    let y ← take bytes start (offset + 5) 4
    let z ← take bytes start (offset + 9) 4
    return (.vector ⟨singleOfBytes x, singleOfBytes y, singleOfBytes z⟩, offset + 13)
  | 6 =>
    let code ← takeByte bytes start (offset + 1)
    match HandleKind.ofByte? code with
    | some kind =>
      let word ← take bytes start (offset + 2) 4
      return (.handle kind (intOfBytes word), offset + 6)
    | none => throw (.unknownLiteral code (offset + 1))
  | _ => throw (.unknownLiteral tag offset)

@[simp] theorem length_stringBytes (s : String) : (stringBytes s).length = s.utf8ByteSize := by
  simp [stringBytes]

theorem length_encode (v : Value) : (encode v).length = encodedLength v := by
  cases v with
  | string s => simp [encode, encodedLength]; omega
  | _ => simp [encode, encodedLength, intBytes, singleBytes]

end CogMachine.Literal
