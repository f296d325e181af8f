import CogMachine.Proofs.Attempt
import CogMachine.Proofs.Codec

/-!
# Malformed bytes

What can be wrong where an instruction should stand, as a list of rules. A rule says which of the bytes
are there and are as they should be, and which comes next and is not; so the rules are in the order of
reading, and at most one of them applies.

- `Literal.Malformed`: the operand of a push; `Instruction.Malformed`: a whole instruction.
- `Literal.decode_eq_error_iff`, `Instruction.decode_eq_error_iff`: the decoder complains exactly of what
  is wrong.
-/

namespace CogMachine

theorem slice?_eq_none {bytes : Array UInt8} {start n : Nat} :
    slice? bytes start n = none ↔ bytes.size < start + n := by
  unfold slice?
  split
  · rename_i h
    simp only [reduceCtorEq, false_iff]
    omega
  · rename_i h
    simp only [true_iff]
    omega

namespace Literal

variable {bytes : Array UInt8} {start offset n : Nat} {cause : Fault.Cause}

/-! ## Reading operands -/

theorem takeByte_eq_ok {b : UInt8} :
    takeByte bytes start offset = .ok b ↔ bytes[offset]? = some b := by
  unfold takeByte
  cases bytes[offset]? <;> simp

/-- A byte is missing if it lies behind the end, and then the instruction is truncated. -/
theorem takeByte_eq_error : takeByte bytes start offset = .error cause ↔
    bytes.size ≤ offset ∧ cause = .truncatedInstruction start := by
  unfold takeByte
  cases hb : bytes[offset]? with
  | none =>
      have hle := Array.getElem?_eq_none_iff.1 hb
      simp [hle, eq_comm]
  | some b =>
      obtain ⟨hlt, -⟩ := Array.getElem?_eq_some_iff.1 hb
      simp only [reduceCtorEq, false_iff, not_and]
      intro hle
      omega

theorem take_eq_ok {word : List UInt8} :
    take bytes start offset n = .ok word ↔ slice? bytes offset n = some word := by
  unfold take
  cases slice? bytes offset n <;> simp

theorem take_eq_error : take bytes start offset n = .error cause ↔
    bytes.size < offset + n ∧ cause = .truncatedInstruction start := by
  unfold take
  cases hs : slice? bytes offset n with
  | none =>
      have hlt := slice?_eq_none.1 hs
      simp [hlt, eq_comm]
  | some word =>
      have hle : ¬ bytes.size < offset + n := by
        intro hlt
        rw [slice?_eq_none.2 hlt] at hs
        cases hs
      simp [hle]

theorem take_of_lt (start : Nat) (h : bytes.size < offset + n) :
    take bytes start offset n = .error (.truncatedInstruction start) :=
  take_eq_error.2 ⟨h, rfl⟩

theorem takeByte_of_le (start : Nat) (h : bytes.size ≤ offset) :
    takeByte bytes start offset = .error (.truncatedInstruction start) :=
  takeByte_eq_error.2 ⟨h, rfl⟩

/-! ## Literals -/

/-- How long the payload behind a tag is, if the tag alone decides it. -/
def payloadLength? : UInt8 → Option Nat
  | 0 => some 0
  | 1 | 2 => some 4
  | 3 => some 1
  | 5 => some 12
  | _ => none

/-- **What is wrong with a literal** at an offset, for an instruction that starts at `start`. -/
inductive Malformed (bytes : Array UInt8) (start offset : Nat) : Fault.Cause → Prop where
  | tagMissing (hsize : bytes.size ≤ offset) :
      Malformed bytes start offset (.truncatedInstruction start)
  | tagUnknown {tag : UInt8} (htag : bytes[offset]? = some tag) (hunknown : 6 < tag) :
      Malformed bytes start offset (.unknownLiteral tag offset)
  | payloadMissing {tag : UInt8} {n : Nat} (htag : bytes[offset]? = some tag)
      (hpayload : payloadLength? tag = some n) (hsize : bytes.size < offset + 1 + n) :
      Malformed bytes start offset (.truncatedInstruction start)
  | lengthMissing (htag : bytes[offset]? = some 4) (hsize : bytes.size < offset + 5) :
      Malformed bytes start offset (.truncatedInstruction start)
  | textMissing {word : List UInt8} (htag : bytes[offset]? = some 4)
      (hword : slice? bytes (offset + 1) 4 = some word)
      (hsize : bytes.size < offset + 5 + wordValue word) :
      Malformed bytes start offset (.truncatedInstruction start)
  /-- The bytes of the text are there, and no string is spelt by them. -/
  | textInvalid {word text : List UInt8} (htag : bytes[offset]? = some 4)
      (hword : slice? bytes (offset + 1) 4 = some word)
      (htext : slice? bytes (offset + 5) (wordValue word) = some text)
      (hinvalid : ∀ s, stringBytes s ≠ text) :
      Malformed bytes start offset (.invalidString offset)
  | kindMissing (htag : bytes[offset]? = some 6) (hsize : bytes.size ≤ offset + 1) :
      Malformed bytes start offset (.truncatedInstruction start)
  /-- The kind is read before the id, so it does not matter here whether the id is there. -/
  | kindUnknown {code : UInt8} (htag : bytes[offset]? = some 6)
      (hcode : bytes[offset + 1]? = some code) (hunknown : ∀ kind : HandleKind, kind.toByte ≠ code) :
      Malformed bytes start offset (.unknownLiteral code (offset + 1))
  | idMissing {kind : HandleKind} (htag : bytes[offset]? = some 6)
      (hcode : bytes[offset + 1]? = some kind.toByte) (hsize : bytes.size < offset + 6) :
      Malformed bytes start offset (.truncatedInstruction start)

theorem stringBytes_of_stringOfBytes? {text : List UInt8} {s : String}
    (h : stringOfBytes? text = some s) : stringBytes s = text := by
  unfold stringOfBytes? String.fromUTF8? at h
  split at h
  · cases h
    rfl
  · cases h

theorem stringOfBytes?_eq_none {text : List UInt8} :
    stringOfBytes? text = none ↔ ∀ s, stringBytes s ≠ text := by
  constructor
  · rintro h s rfl
    rw [stringOfBytes?_stringBytes] at h
    cases h
  · intro h
    cases hs : stringOfBytes? text with
    | none => rfl
    | some s => exact absurd (stringBytes_of_stringOfBytes? hs) (h s)

theorem ofByte?_eq_none {code : UInt8} :
    HandleKind.ofByte? code = none ↔ ∀ kind : HandleKind, kind.toByte ≠ code := by
  constructor
  · rintro h kind rfl
    rw [HandleKind.ofByte?_toByte] at h
    cases h
  · intro h
    cases hk : HandleKind.ofByte? code with
    | none => rfl
    | some kind => exact absurd (HandleKind.toByte_of_ofByte? hk) (h kind)

/-- A decoder that fails met something wrong. The cases are those of the tag. -/
theorem malformed_of_decode (h : decode bytes start offset = .error cause) :
    Malformed bytes start offset cause := by
  unfold decode at h
  rcases Attempt.bind_eq_error h with htag | ⟨tag, htag, h⟩
  · obtain ⟨hsize, rfl⟩ := takeByte_eq_error.1 htag
    exact .tagMissing hsize
  · rw [takeByte_eq_ok] at htag
    split at h
    · cases h
    · rcases Attempt.bind_eq_error h with hword | ⟨word, -, h⟩
      · obtain ⟨hsize, rfl⟩ := take_eq_error.1 hword
        exact .payloadMissing htag rfl hsize
      · cases h
    · rcases Attempt.bind_eq_error h with hword | ⟨word, -, h⟩
      · obtain ⟨hsize, rfl⟩ := take_eq_error.1 hword
        exact .payloadMissing htag rfl hsize
      · cases h
    · rcases Attempt.bind_eq_error h with hbyte | ⟨b, -, h⟩
      · obtain ⟨hsize, rfl⟩ := takeByte_eq_error.1 hbyte
        exact .payloadMissing htag rfl (by omega)
      · cases h
    · rcases Attempt.bind_eq_error h with hword | ⟨word, hword, h⟩
      · obtain ⟨hsize, rfl⟩ := take_eq_error.1 hword
        exact .lengthMissing htag hsize
      · rw [take_eq_ok] at hword
        rcases Attempt.bind_eq_error h with htext | ⟨text, htext, h⟩
        · obtain ⟨hsize, rfl⟩ := take_eq_error.1 htext
          exact .textMissing htag hword hsize
        · rw [take_eq_ok] at htext
          cases hs : stringOfBytes? text with
          | some s =>
              rw [hs] at h
              cases h
          | none =>
              rw [hs] at h
              cases h
              exact .textInvalid htag hword htext (stringOfBytes?_eq_none.1 hs)
    · -- The three components are read one by one, and each of them may be the one that is missing.
      have hshort : bytes.size < offset + 1 + 12 ∧ cause = .truncatedInstruction start := by
        rcases Attempt.bind_eq_error h with hx | ⟨x, -, h⟩
        · obtain ⟨hsize, hcause⟩ := take_eq_error.1 hx
          exact ⟨by omega, hcause⟩
        · rcases Attempt.bind_eq_error h with hy | ⟨y, -, h⟩
          · obtain ⟨hsize, hcause⟩ := take_eq_error.1 hy
            exact ⟨by omega, hcause⟩
          · rcases Attempt.bind_eq_error h with hz | ⟨z, -, h⟩
            · obtain ⟨hsize, hcause⟩ := take_eq_error.1 hz
              exact ⟨by omega, hcause⟩
            · cases h
      obtain ⟨hsize, rfl⟩ := hshort
      exact .payloadMissing htag rfl hsize
    · rcases Attempt.bind_eq_error h with hcode | ⟨code, hcode, h⟩
      · obtain ⟨hsize, rfl⟩ := takeByte_eq_error.1 hcode
        exact .kindMissing htag hsize
      · rw [takeByte_eq_ok] at hcode
        cases hk : HandleKind.ofByte? code with
        | none =>
            rw [hk] at h
            cases h
            exact .kindUnknown htag hcode (ofByte?_eq_none.1 hk)
        | some kind =>
            rw [hk] at h
            rcases Attempt.bind_eq_error h with hword | ⟨word, -, h⟩
            · obtain ⟨hsize, rfl⟩ := take_eq_error.1 hword
              rw [← HandleKind.toByte_of_ofByte? hk] at hcode
              exact .idMissing htag hcode (by omega)
            · cases h
    · rename_i h0 h1 h2 h3 h4 h5 h6
      cases h
      refine .tagUnknown htag ?_
      have hne (n : UInt8) (hn : tag = n → False) : tag.toNat ≠ n.toNat :=
        fun he => hn (UInt8.toNat_inj.1 he)
      have hne0 : tag.toNat ≠ 0 := hne 0 h0
      have hne1 : tag.toNat ≠ 1 := hne 1 h1
      have hne2 : tag.toNat ≠ 2 := hne 2 h2
      have hne3 : tag.toNat ≠ 3 := hne 3 h3
      have hne4 : tag.toNat ≠ 4 := hne 4 h4
      have hne5 : tag.toNat ≠ 5 := hne 5 h5
      have hne6 : tag.toNat ≠ 6 := hne 6 h6
      rw [UInt8.lt_iff_toNat_lt]
      show 6 < tag.toNat
      omega

/-- What is wrong is complained of: everything before it is there and is read. -/
theorem Malformed.decode (h : Malformed bytes start offset cause) :
    decode bytes start offset = .error cause := by
  unfold Literal.decode
  cases h with
  | tagMissing hsize =>
      rw [takeByte_of_le start hsize]
      rfl
  | @tagUnknown tag htag hunknown =>
      rw [takeByte_eq_ok.2 htag]
      simp only [bind, Except.bind]
      split
      all_goals first | rfl | exact absurd hunknown (by decide)
  | @payloadMissing tag n htag hpayload hsize =>
      rw [takeByte_eq_ok.2 htag]
      unfold payloadLength? at hpayload
      simp only [bind, Except.bind]
      split at hpayload
      · cases hpayload
        obtain ⟨hlt, -⟩ := Array.getElem?_eq_some_iff.1 htag
        omega
      · cases hpayload
        rw [take_of_lt start hsize]
        rfl
      · cases hpayload
        rw [take_of_lt start hsize]
        rfl
      · cases hpayload
        rw [takeByte_of_le start (by omega)]
        rfl
      · cases hpayload
        -- The first two components may be there, and then the third is missing.
        have hz : take bytes start (offset + 9) 4 = .error (.truncatedInstruction start) :=
          take_of_lt start (by omega)
        cases hx : take bytes start (offset + 1) 4 with
        | error cause =>
            obtain ⟨-, rfl⟩ := take_eq_error.1 hx
            rfl
        | ok x =>
            cases hy : take bytes start (offset + 5) 4 with
            | error cause =>
                obtain ⟨-, rfl⟩ := take_eq_error.1 hy
                rfl
            | ok y =>
                rw [hz]
                rfl
      · cases hpayload
  | lengthMissing htag hsize =>
      have hword : take bytes start (offset + 1) 4 = .error (.truncatedInstruction start) :=
        take_of_lt start hsize
      rw [takeByte_eq_ok.2 htag]
      simp only [bind, Except.bind, hword]
  | textMissing htag hword hsize =>
      rw [takeByte_eq_ok.2 htag]
      simp only [bind, Except.bind, take_eq_ok.2 hword, take_of_lt start hsize]
  | textInvalid htag hword htext hinvalid =>
      rw [takeByte_eq_ok.2 htag]
      simp only [bind, Except.bind, take_eq_ok.2 hword, take_eq_ok.2 htext,
        stringOfBytes?_eq_none.2 hinvalid]
      rfl
  | kindMissing htag hsize =>
      rw [takeByte_eq_ok.2 htag]
      simp only [bind, Except.bind, takeByte_of_le start hsize]
  | kindUnknown htag hcode hunknown =>
      rw [takeByte_eq_ok.2 htag]
      simp only [bind, Except.bind, takeByte_eq_ok.2 hcode, ofByte?_eq_none.2 hunknown]
      rfl
  | idMissing htag hcode hsize =>
      have hid : take bytes start (offset + 2) 4 = .error (.truncatedInstruction start) :=
        take_of_lt start hsize
      rw [takeByte_eq_ok.2 htag]
      simp only [bind, Except.bind, takeByte_eq_ok.2 hcode, HandleKind.ofByte?_toByte, hid]

/-- **Literals are refused** for what is wrong with them. -/
theorem decode_eq_error_iff : Literal.decode bytes start offset = .error cause ↔
    Malformed bytes start offset cause :=
  ⟨malformed_of_decode, Malformed.decode⟩

end Literal

/-! ## Instructions -/

/-- Whether a word follows the tag. -/
def Mnemonic.hasWord : Mnemonic → Bool
  | memory _ | branch _ | call _ => true
  | push | dup | ret | unary _ | binary _ => false

theorem Mnemonic.ofTag?_eq_none {tag : UInt8} :
    Mnemonic.ofTag? tag = none ↔ ∀ m : Mnemonic, m.tag ≠ tag := by
  constructor
  · rintro h m rfl
    rw [Mnemonic.ofTag?_tag] at h
    cases h
  · intro h
    cases hm : Mnemonic.ofTag? tag with
    | none => rfl
    | some m => exact absurd (Mnemonic.tag_of_ofTag? hm) (h m)

namespace Instruction

variable {bytes : Array UInt8} {offset : Nat} {cause : Fault.Cause}

/-- **What is wrong with an instruction** at an offset. -/
inductive Malformed (bytes : Array UInt8) (offset : Nat) : Fault.Cause → Prop where
  | outside (hsize : bytes.size ≤ offset) :
      Malformed bytes offset (.addressOutOfRange offset bytes.size)
  | tagUnknown {tag : UInt8} (htag : bytes[offset]? = some tag)
      (hunknown : ∀ m : Mnemonic, m.tag ≠ tag) :
      Malformed bytes offset (.unknownOpcode tag offset)
  | literal {cause : Fault.Cause} (htag : bytes[offset]? = some Mnemonic.push.tag)
      (hliteral : Literal.Malformed bytes offset (offset + 1) cause) :
      Malformed bytes offset cause
  | wordMissing {m : Mnemonic} (htag : bytes[offset]? = some m.tag) (hm : m.hasWord = true)
      (hsize : bytes.size < offset + 5) :
      Malformed bytes offset (.truncatedInstruction offset)
  /-- Only a branch that is there as a whole has a target. -/
  | targetOutside {op : BranchOp} {word : List UInt8}
      (htag : bytes[offset]? = some (Mnemonic.branch op).tag)
      (hword : slice? bytes (offset + 1) 4 = some word) (htarget : bytes.size ≤ wordValue word) :
      Malformed bytes offset (.addressOutOfRange (wordValue word) bytes.size)

/-- An instruction whose tag is known reads its operand, and a branch then checks its target. -/
theorem decode_of_tag {m : Mnemonic} (htag : bytes[offset]? = some m.tag) :
    decode bytes offset = (do
      let (opcode, next) ← readOperand bytes offset m
      match opcode.target? with
      | none => return ⟨opcode, offset, next⟩
      | some target =>
        if target < bytes.size then return ⟨opcode, offset, next⟩
        else throw (.addressOutOfRange target bytes.size)) := by
  have hm : Mnemonic.ofTag? m.tag = some m := Mnemonic.ofTag?_tag m
  unfold decode
  rw [htag]
  dsimp only
  generalize Mnemonic.ofTag? m.tag = found at hm ⊢
  subst hm
  rfl

/-- Only branches have targets, and the target is the word behind the tag. -/
theorem branch_of_readOperand {m : Mnemonic} {o : Opcode} {next target : Nat}
    (h : readOperand bytes offset m = .ok (o, next)) (ht : o.target? = some target) :
    ∃ op word, m = .branch op ∧ slice? bytes (offset + 1) 4 = some word ∧ wordValue word = target := by
  cases m with
  | branch op =>
      obtain ⟨word, hword, h⟩ := Attempt.bind_eq_ok h
      cases h
      cases ht
      exact ⟨op, word, rfl, Literal.take_eq_ok.1 hword, rfl⟩
  | push | memory op | call keeps =>
      obtain ⟨_, -, h⟩ := Attempt.bind_eq_ok h
      cases h
      cases ht
  | dup | ret | unary op | binary op =>
      cases h
      cases ht

theorem malformed_of_readOperand {m : Mnemonic} (htag : bytes[offset]? = some m.tag)
    (h : readOperand bytes offset m = .error cause) : Malformed bytes offset cause := by
  cases m with
  | push =>
      rcases Attempt.bind_eq_error h with hliteral | ⟨_, -, h⟩
      · exact .literal htag (Literal.malformed_of_decode hliteral)
      · cases h
  | memory op | branch op | call keeps =>
      rcases Attempt.bind_eq_error h with hword | ⟨_, -, h⟩
      · obtain ⟨hsize, rfl⟩ := Literal.take_eq_error.1 hword
        exact .wordMissing htag rfl hsize
      · cases h
  | dup | ret | unary op | binary op => cases h

/-- What is wrong is complained of. -/
theorem Malformed.decode (h : Malformed bytes offset cause) :
    decode bytes offset = .error cause := by
  cases h with
  | outside hsize =>
      unfold Instruction.decode
      rw [Array.getElem?_eq_none_iff.2 hsize]
  | tagUnknown htag hunknown =>
      unfold Instruction.decode
      rw [htag]
      simp only [Mnemonic.ofTag?_eq_none.2 hunknown]
  | literal htag hliteral =>
      rw [decode_of_tag htag]
      simp only [readOperand, hliteral.decode]
      rfl
  | @wordMissing m htag hm hsize =>
      have hword : Literal.take bytes offset (offset + 1) 4 =
          .error (.truncatedInstruction offset) := Literal.take_of_lt offset hsize
      rw [decode_of_tag htag]
      cases m with
      | memory op | branch op | call keeps =>
          simp only [readOperand, hword]
          rfl
      | push | dup | ret | unary op | binary op => cases hm
  | targetOutside htag hword htarget =>
      rw [decode_of_tag htag]
      simp only [readOperand, Literal.take_eq_ok.2 hword]
      exact if_neg (Nat.not_lt.2 htarget)

/-- Either the offset lies outside, or no mnemonic has the byte there for its tag, or one has. -/
theorem tag_cases (bytes : Array UInt8) (offset : Nat) :
    bytes.size ≤ offset ∨ (∃ tag, bytes[offset]? = some tag ∧ ∀ m : Mnemonic, m.tag ≠ tag) ∨
      ∃ m : Mnemonic, bytes[offset]? = some m.tag := by
  cases htag : bytes[offset]? with
  | none => exact .inl (Array.getElem?_eq_none_iff.1 htag)
  | some tag =>
      cases hm : Mnemonic.ofTag? tag with
      | none => exact .inr (.inl ⟨tag, rfl, Mnemonic.ofTag?_eq_none.1 hm⟩)
      | some m => exact .inr (.inr ⟨m, congrArg some (Mnemonic.tag_of_ofTag? hm).symm⟩)

/-- A decoder that fails met something wrong. -/
theorem malformed_of_decode (h : decode bytes offset = .error cause) :
    Malformed bytes offset cause := by
  rcases tag_cases bytes offset with hsize | ⟨tag, htag, hunknown⟩ | ⟨m, htag⟩
  · rw [(Malformed.outside hsize).decode] at h
    cases h
    exact .outside hsize
  · rw [(Malformed.tagUnknown htag hunknown).decode] at h
    cases h
    exact .tagUnknown htag hunknown
  · rw [decode_of_tag htag] at h
    rcases Attempt.bind_eq_error h with hread | ⟨⟨o, next⟩, hread, hcheck⟩
    · exact malformed_of_readOperand htag hread
    · cases ht : o.target? with
      | none =>
          simp only [ht] at hcheck
          cases hcheck
      | some target =>
          obtain ⟨op, word, rfl, hword, rfl⟩ := branch_of_readOperand hread ht
          simp only [ht] at hcheck
          split at hcheck
          · cases hcheck
          · rename_i houtside
            cases hcheck
            exact .targetOutside htag hword (Nat.le_of_not_lt houtside)

/-- **Instructions are refused** for what is wrong with them. -/
theorem decode_eq_error_iff :
    Instruction.decode bytes offset = .error cause ↔ Malformed bytes offset cause :=
  ⟨malformed_of_decode, Malformed.decode⟩

end Instruction
end CogMachine
