import CogMachine.Bytecode.Opcode

/-!
# Instructions

An instruction is an opcode found in a program, with the offset of its tag and the offset after its
operand. Decoding reads left to right and reports the first thing that is wrong: an offset outside
the program, a byte that is no tag, an operand that is malformed or missing, and last a branch whose
target lies outside the program.
-/

namespace CogMachine

/-- An opcode and the place where it was found. -/
structure Instruction where
  opcode : Opcode
  offset : Nat
  next : Nat
  deriving DecidableEq, Inhabited, Repr

namespace Instruction

def length (i : Instruction) : Nat := i.next - i.offset

/-- The opcode of a mnemonic whose operand starts just after `offset`, and the offset after it. -/
def readOperand (bytes : Array UInt8) (offset : Nat) (m : Mnemonic) :
    Except Fault.Cause (Opcode × Nat) :=
  match m with
  | .push => do
    let (value, next) ← Literal.decode bytes offset (offset + 1)
    return (.push value, next)
  | .dup => return (.dup, offset + 1)
  | .memory op => do
    let word ← Literal.take bytes offset (offset + 1) 4
    return (.memory op (wordValue word), offset + 5)
  | .branch op => do
    let word ← Literal.take bytes offset (offset + 1) 4
    return (.branch op (wordValue word), offset + 5)
  | .call keeps => do
    let word ← Literal.take bytes offset (offset + 1) 4
    return (.call keeps ⟨Literal.intOfBytes word⟩, offset + 5)
  | .ret => return (.ret, offset + 1)
  | .unary op => return (.unary op, offset + 1)
  | .binary op => return (.binary op, offset + 1)

/-- **Decoding** of the instruction at an offset. -/
def decode (bytes : Array UInt8) (offset : Nat) : Except Fault.Cause Instruction :=
  match bytes[offset]? with
  | none => .error (.addressOutOfRange offset bytes.size)
  | some tag =>
    match Mnemonic.ofTag? tag with
    | none => .error (.unknownOpcode tag offset)
    | some m => do
      let (opcode, next) ← readOperand bytes offset m
      match opcode.target? with
      | none => return ⟨opcode, offset, next⟩
      | some target =>
        if target < bytes.size then return ⟨opcode, offset, next⟩
        else throw (.addressOutOfRange target bytes.size)

theorem lt_of_decode_literal {bytes : Array UInt8} {start offset next : Nat} {v : Value}
    (h : Literal.decode bytes start offset = .ok (v, next)) : offset < next := by
  unfold Literal.decode at h
  cases ht : Literal.takeByte bytes start offset with
  | error e => simp [ht, bind, Except.bind] at h
  | ok tag =>
    simp only [ht, bind, Except.bind, pure, Except.pure, throw, throwThe,
      MonadExceptOf.throw] at h
    split at h <;> (repeat' split at h) <;> grind

theorem lt_of_readOperand {bytes : Array UInt8} {offset next : Nat} {m : Mnemonic} {o : Opcode}
    (h : readOperand bytes offset m = .ok (o, next)) : offset < next := by
  cases m with
  | push =>
    cases hl : Literal.decode bytes offset (offset + 1) with
    | error e => simp [readOperand, hl, bind, Except.bind] at h
    | ok r =>
      obtain ⟨v, n⟩ := r
      simp only [readOperand, hl, bind, Except.bind, pure, Except.pure, Except.ok.injEq,
        Prod.mk.injEq] at h
      have := lt_of_decode_literal hl
      omega
  | memory op | branch op | call keeps =>
    cases ht : Literal.take bytes offset (offset + 1) 4 with
    | error e => simp [readOperand, ht, bind, Except.bind] at h
    | ok w =>
      simp only [readOperand, ht, bind, Except.bind, pure, Except.pure, Except.ok.injEq,
        Prod.mk.injEq] at h
      omega
  | dup | ret | unary op | binary op =>
    simp only [readOperand, pure, Except.pure, Except.ok.injEq, Prod.mk.injEq] at h
    omega

/-- **Progress.** Decoding goes forward, and starts where it was asked to. -/
theorem offset_lt_next {bytes : Array UInt8} {offset : Nat} {i : Instruction}
    (h : decode bytes offset = .ok i) : i.offset = offset ∧ offset < i.next := by
  unfold decode at h
  split at h
  · simp at h
  · split at h
    · simp at h
    · rename_i m _
      cases hr : readOperand bytes offset m with
      | error e => simp [hr, bind, Except.bind] at h
      | ok r =>
        obtain ⟨o, n⟩ := r
        have hn := lt_of_readOperand hr
        simp only [hr, bind, Except.bind, pure, Except.pure] at h
        split at h
        · cases h; exact ⟨rfl, hn⟩
        · split at h
          · cases h; exact ⟨rfl, hn⟩
          · simp [throw, throwThe, MonadExceptOf.throw] at h

end Instruction
end CogMachine
