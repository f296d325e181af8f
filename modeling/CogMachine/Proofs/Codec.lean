import CogMachine.Bytecode.Program

/-!
# Decoding what was encoded

An encoded opcode reads back wherever it stands among other bytes, provided its operand fits in what
the format has for it and a branch stays inside the program. `Spells` says that a text of bytes stands
at an offset; every reader of the decoder is judged by it.

- `Instruction.decode_of_spells`: one instruction;
- `Program.instructions_ofBytes`: a sequence of opcodes, each found at the sum of the lengths before.
-/

namespace CogMachine

/-! ## Texts among other bytes -/

def Spells (bytes : Array UInt8) (offset : Nat) (text : List UInt8) : Prop :=
  ∃ before after, bytes = (before ++ text ++ after).toArray ∧ before.length = offset

namespace Spells

variable {bytes : Array UInt8} {offset : Nat} {text rest : List UInt8} {b : UInt8}

theorem left (h : Spells bytes offset (text ++ rest)) : Spells bytes offset text := by
  obtain ⟨before, after, rfl, rfl⟩ := h
  exact ⟨before, rest ++ after, by simp, rfl⟩

theorem right (h : Spells bytes offset (text ++ rest)) :
    Spells bytes (offset + text.length) rest := by
  obtain ⟨before, after, rfl, rfl⟩ := h
  exact ⟨before ++ text, after, by simp, by simp⟩

theorem tail (h : Spells bytes offset (b :: rest)) : Spells bytes (offset + 1) rest :=
  have hb : Spells bytes offset ([b] ++ rest) := h
  hb.right

theorem getElem? (h : Spells bytes offset (b :: rest)) : bytes[offset]? = some b := by
  obtain ⟨before, after, rfl, rfl⟩ := h
  simp

theorem slice? (h : Spells bytes offset text) : slice? bytes offset text.length = some text := by
  obtain ⟨before, after, rfl, rfl⟩ := h
  exact slice?_append before text after

theorem take {start n : Nat} (h : Spells bytes offset text) (hn : text.length = n) :
    Literal.take bytes start offset n = .ok text := by
  subst hn
  unfold Literal.take
  rw [h.slice?]

theorem takeByte {start : Nat} (h : Spells bytes offset (b :: rest)) :
    Literal.takeByte bytes start offset = .ok b := by
  unfold Literal.takeByte
  rw [h.getElem?]

theorem le_size (h : Spells bytes offset text) : offset + text.length ≤ bytes.size := by
  obtain ⟨before, after, rfl, rfl⟩ := h
  simp

theorem extract (h : Spells bytes offset text) :
    (bytes.extract offset (offset + text.length)).toList = text := by
  have hslice := h.slice?
  unfold CogMachine.slice? at hslice
  rw [if_pos h.le_size] at hslice
  exact Option.some.inj hslice

/-- A text of known length that stands at an offset is what is read there. -/
theorem of_slice? {n : Nat} (h : CogMachine.slice? bytes offset n = some text) :
    Spells bytes offset text ∧ text.length = n := by
  unfold CogMachine.slice? at h
  split at h
  · rename_i hsize
    cases h
    refine ⟨⟨bytes.toList.take offset, bytes.toList.drop (offset + n), ?_, ?_⟩, ?_⟩
    · apply Array.toList_inj.1
      rw [Array.toList_extract, List.extract_eq_take_drop, Nat.add_sub_cancel_left,
        List.append_assoc, ← List.drop_drop, List.take_append_drop, List.take_append_drop]
    · rw [List.length_take, Array.length_toList]
      omega
    · rw [Array.length_toList, Array.size_extract]
      omega
  · cases h

theorem of_getElem? (h : bytes[offset]? = some b) : Spells bytes offset [b] := by
  obtain ⟨hlt, rfl⟩ := Array.getElem?_eq_some_iff.1 h
  have hslice : CogMachine.slice? bytes offset 1 = some [bytes[offset]] := by
    have hdrop : bytes.toList.drop offset = bytes[offset] :: bytes.toList.drop (offset + 1) :=
      List.drop_eq_getElem_cons hlt
    unfold CogMachine.slice?
    rw [if_pos (by omega), Array.toList_extract, List.extract_eq_take_drop, hdrop,
      Nat.add_sub_cancel_left]
    rfl
  exact (of_slice? hslice).1

/-- A text stands wherever the same bytes stand. -/
theorem congr {bytes' : Array UInt8} (h : Spells bytes offset text)
    (hsize : bytes'.size = bytes.size)
    (hsame : ∀ j, offset ≤ j → j < offset + text.length → bytes'[j]? = bytes[j]?) :
    Spells bytes' offset text := by
  have hle := h.le_size
  have hextract : bytes'.extract offset (offset + text.length) =
      bytes.extract offset (offset + text.length) := by
    apply Array.ext_getElem?
    intro j
    rw [Array.getElem?_extract, Array.getElem?_extract, hsize]
    split
    · rename_i hj
      exact hsame _ (by omega) (by omega)
    · rfl
  have hslice : CogMachine.slice? bytes' offset text.length = some text := by
    unfold CogMachine.slice?
    rw [if_pos (hsize ▸ hle), hextract, h.extract]
  exact (of_slice? hslice).1

/-- Texts that stand one after the other are one text. -/
theorem append (h : Spells bytes offset text) (hrest : Spells bytes (offset + text.length) rest) :
    Spells bytes offset (text ++ rest) := by
  obtain ⟨before, after, hbytes, rfl⟩ := h
  obtain ⟨before', after', rfl, hlength⟩ := hrest
  have hsame : before' ++ (rest ++ after') = before ++ text ++ after := by
    simpa using hbytes
  obtain ⟨rfl, rfl⟩ := List.append_inj hsame (by simpa using hlength)
  exact ⟨before, after', by simp, rfl⟩

end Spells

/-! ## Literals -/

namespace Literal

@[simp] theorem length_intBytes (n : Int32) : (intBytes n).length = 4 := rfl

@[simp] theorem length_singleBytes (x : Single) : (singleBytes x).length = 4 := rfl

theorem uint32_ofNat_wordValue (n : UInt32) : UInt32.ofNat (wordValue (wordBytes n.toNat)) = n := by
  rw [wordValue_wordBytes]
  apply UInt32.toNat_inj.1
  rw [UInt32.toNat_ofNat']
  have hn : n.toNat < wordLimit := n.toNat_lt
  unfold wordLimit at hn ⊢
  omega

@[simp] theorem intOfBytes_intBytes (n : Int32) : intOfBytes (intBytes n) = n := by
  unfold intOfBytes intBytes
  rw [uint32_ofNat_wordValue]
  simp

/-- A single reads back, bit for bit. -/
@[simp] theorem singleOfBytes_singleBytes (x : Single) : singleOfBytes (singleBytes x) = x := by
  unfold singleOfBytes singleBytes
  rw [uint32_ofNat_wordValue]

@[simp] theorem stringOfBytes?_stringBytes (s : String) :
    stringOfBytes? (stringBytes s) = some s := by
  unfold stringOfBytes? stringBytes String.fromUTF8?
  simp [s.isValidUTF8]
  rfl

/-- **Literals read back,** if the length of a string fits in a word. -/
theorem decode_of_spells {bytes : Array UInt8} {start offset : Nat} {v : Value}
    (h : Spells bytes offset (encode v))
    (hfit : ∀ s, v = .string s → s.utf8ByteSize < wordLimit) :
    decode bytes start offset = .ok (v, offset + encodedLength v) := by
  unfold decode
  cases v with
  | void =>
      rw [h.takeByte]
      rfl
  | int n =>
      have hword : take bytes start (offset + 1) 4 = .ok (intBytes n) := h.tail.take rfl
      rw [h.takeByte]
      simp [hword, encodedLength, bind, Except.bind, pure, Except.pure]
  | float x =>
      have hword : take bytes start (offset + 1) 4 = .ok (singleBytes x) := h.tail.take rfl
      rw [h.takeByte]
      simp [hword, encodedLength, bind, Except.bind, pure, Except.pure]
  | bool b =>
      have hbyte : takeByte bytes start (offset + 1) = .ok (if b then 1 else 0) :=
        h.tail.takeByte
      rw [h.takeByte]
      cases b <;> simp [hbyte, encodedLength, bind, Except.bind, pure, Except.pure]
  | string s =>
      have hword : take bytes start (offset + 1) 4 = .ok (wordBytes s.utf8ByteSize) :=
        h.tail.left.take rfl
      -- Only here does a length have to fit: every other payload has a fixed one.
      have hlength : wordValue (wordBytes s.utf8ByteSize) = s.utf8ByteSize := by
        rw [wordValue_wordBytes]
        exact Nat.mod_eq_of_lt (hfit s rfl)
      have htext : take bytes start (offset + 5) s.utf8ByteSize = .ok (stringBytes s) :=
        h.tail.right.take (length_stringBytes s)
      rw [h.takeByte]
      simp [hword, hlength, htext, encodedLength, bind, Except.bind, pure, Except.pure,
        Nat.add_assoc]
  | vector v =>
      have hx : take bytes start (offset + 1) 4 = .ok (singleBytes v.x) :=
        h.tail.left.left.take rfl
      have hy : take bytes start (offset + 5) 4 = .ok (singleBytes v.y) :=
        h.tail.left.right.take rfl
      have hz : take bytes start (offset + 9) 4 = .ok (singleBytes v.z) := h.tail.right.take rfl
      rw [h.takeByte]
      simp [hx, hy, hz, encodedLength, bind, Except.bind, pure, Except.pure]
  | handle kind id =>
      have hkind : takeByte bytes start (offset + 1) = .ok kind.toByte := h.tail.takeByte
      have hword : take bytes start (offset + 2) 4 = .ok (intBytes id) := h.tail.tail.take rfl
      rw [h.takeByte]
      simp [hkind, hword, encodedLength, bind, Except.bind, pure, Except.pure]

end Literal

/-! ## Instructions -/

/-- **An operand that the format can hold:** a string whose length fits in a word, an address that
does. -/
structure Opcode.Fits (o : Opcode) : Prop where
  string : ∀ s, o = .push (.string s) → s.utf8ByteSize < wordLimit
  address : ∀ a, o.address? = some a → a < wordLimit

namespace Instruction

theorem readOperand_of_spells {bytes : Array UInt8} {offset : Nat} {o : Opcode}
    (h : Spells bytes offset o.encode) (hfit : o.Fits) :
    readOperand bytes offset o.mnemonic = .ok (o, offset + o.encodedLength) := by
  have hoperand : Spells bytes (offset + 1) o.operandBytes := h.tail
  cases o with
  | push v =>
      have hv : Literal.decode bytes offset (offset + 1) =
          .ok (v, offset + 1 + Literal.encodedLength v) :=
        Literal.decode_of_spells hoperand fun s hs => hfit.string s (by rw [hs])
      simp [readOperand, Opcode.mnemonic, Opcode.encodedLength, hv, bind, Except.bind, pure,
        Except.pure, Nat.add_assoc]
  | memory op a =>
      have hword : Literal.take bytes offset (offset + 1) 4 = .ok (wordBytes a) :=
        hoperand.take rfl
      have ha : wordValue (wordBytes a) = a := by
        rw [wordValue_wordBytes]
        exact Nat.mod_eq_of_lt (hfit.address a rfl)
      simp [readOperand, Opcode.mnemonic, Opcode.encodedLength, hword, ha, bind, Except.bind,
        pure, Except.pure]
  | branch op t =>
      have hword : Literal.take bytes offset (offset + 1) 4 = .ok (wordBytes t) :=
        hoperand.take rfl
      have ht : wordValue (wordBytes t) = t := by
        rw [wordValue_wordBytes]
        exact Nat.mod_eq_of_lt (hfit.address t rfl)
      simp [readOperand, Opcode.mnemonic, Opcode.encodedLength, hword, ht, bind, Except.bind,
        pure, Except.pure]
  | call keeps verb =>
      have hword : Literal.take bytes offset (offset + 1) 4 = .ok (Literal.intBytes verb.number) :=
        hoperand.take rfl
      simp [readOperand, Opcode.mnemonic, Opcode.encodedLength, hword, bind, Except.bind, pure,
        Except.pure]
  | dup | ret | unary op | binary op => rfl

/-- **Instructions read back** wherever they stand, if a branch stays inside the program. -/
theorem decode_of_spells {bytes : Array UInt8} {offset : Nat} {o : Opcode}
    (h : Spells bytes offset o.encode) (hfit : o.Fits)
    (hinside : ∀ t, o.target? = some t → t < bytes.size) :
    decode bytes offset = .ok ⟨o, offset, offset + o.encodedLength⟩ := by
  have htag : bytes[offset]? = some o.mnemonic.tag := h.getElem?
  have hread := readOperand_of_spells h hfit
  unfold decode
  rw [htag]
  cases ht : o.target? with
  | none => simp [hread, ht, bind, Except.bind, pure, Except.pure]
  | some t => simp [hread, ht, hinside t ht, bind, Except.bind, pure, Except.pure]

end Instruction

/-! ## Programs -/

/-- Opcodes laid out one after the other from an offset on. -/
def layout (offset : Nat) : List Opcode → List Instruction
  | [] => []
  | o :: os => ⟨o, offset, offset + o.encodedLength⟩ :: layout (offset + o.encodedLength) os

namespace Program

theorem instructionsFrom_of_ok {p : Program} {n : Nat} {i : Instruction} (hlt : n < p.length)
    (h : p.decode n = .ok i) : p.instructionsFrom n = .ok i :: p.instructionsFrom i.next := by
  rw [instructionsFrom, dif_pos hlt]
  split
  · rename_i cause hcause
    rw [h] at hcause
    cases hcause
  · rename_i j hj
    rw [h] at hj
    cases hj
    rfl

theorem instructionsFrom_of_error {p : Program} {n : Nat} {cause : Fault.Cause}
    (hlt : n < p.length) (h : p.decode n = .error cause) : p.instructionsFrom n = [.error cause] := by
  rw [instructionsFrom, dif_pos hlt]
  split
  · rename_i cause' hcause
    rw [h] at hcause
    cases hcause
    rfl
  · rename_i i hi
    rw [h] at hi
    cases hi

/-- The rest of a program that ends with these opcodes. The induction is on the opcodes: each is
decoded at the offset that the ones before it leave. -/
theorem instructionsFrom_of_spells {p : Program} {offset : Nat} {os : List Opcode}
    (h : Spells p.bytes offset (os.flatMap Opcode.encode))
    (hend : offset + (os.flatMap Opcode.encode).length = p.length)
    (hfit : ∀ o ∈ os, o.Fits) (hinside : ∀ o ∈ os, ∀ t, o.target? = some t → t < p.length) :
    p.instructionsFrom offset = (layout offset os).map .ok := by
  induction os generalizing offset with
  | nil =>
      rw [instructionsFrom, dif_neg (by simp at hend; omega)]
      rfl
  | cons o os ih =>
      rw [List.flatMap_cons] at h hend
      rw [List.length_append, Opcode.length_encode] at hend
      have hpos := o.encodedLength_pos
      have hdecode : p.decode offset = .ok ⟨o, offset, offset + o.encodedLength⟩ :=
        Instruction.decode_of_spells h.left (hfit o (by simp)) (hinside o (by simp))
      have hrest : Spells p.bytes (offset + o.encodedLength) (os.flatMap Opcode.encode) := by
        rw [← Opcode.length_encode]
        exact h.right
      -- The opcodes end where the program ends, so there is one more as long as any is left.
      have hnext := ih hrest (by omega) (fun o ho => hfit o (by simp [ho]))
        (fun o ho => hinside o (by simp [ho]))
      have hlt : offset < p.length := by omega
      rw [instructionsFrom_of_ok hlt hdecode, hnext]
      rfl

/-- **Programs read back:** the opcodes that were encoded one after the other. -/
theorem instructions_ofBytes {os : List Opcode} (hfit : ∀ o ∈ os, o.Fits)
    (hinside : ∀ o ∈ os, ∀ t, o.target? = some t →
      t < (ofBytes (os.flatMap Opcode.encode)).length) :
    (ofBytes (os.flatMap Opcode.encode)).instructions = (layout 0 os).map .ok := by
  apply instructionsFrom_of_spells _ _ hfit hinside
  · exact ⟨[], [], by simp [ofBytes], rfl⟩
  · simp [ofBytes, length]

end Program
end CogMachine
