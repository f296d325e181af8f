import CogMachine.Proofs.Malformed

/-!
# What the decoder accepts

The decoder accepts the encodings of opcodes and, since any byte but zero reads as true, the texts that
push `true` with another byte. `Opcode.Denotes` is the relation between these texts and their opcodes, and
`Instruction.decode_eq_ok_iff` says that it is decided by the bytes of the instruction alone.

- `Instruction.decode_encode`: decoding undoes encoding, whatever stands before and behind, and an
  encoding that is cut short is no instruction.
- `Instruction.decode_exact`: what is accepted, what is refused, and for which reason.
-/

namespace CogMachine

/-! ## Words and strings -/

theorem wordBytes_wordValue_of_length {word : List UInt8} (h : word.length = 4) :
    wordBytes (wordValue word) = word := by
  obtain ⟨a, b, c, d, rfl⟩ := List.length_eq_four.1 h
  exact wordBytes_wordValue a b c d

theorem wordValue_lt {word : List UInt8} (h : word.length = 4) : wordValue word < wordLimit := by
  rw [← wordBytes_wordValue_of_length h, wordValue_wordBytes]
  exact Nat.mod_lt _ (by decide)

namespace Literal

theorem toNat_ofNat_wordValue {word : List UInt8} (h : word.length = 4) :
    (UInt32.ofNat (wordValue word)).toNat = wordValue word := by
  rw [UInt32.toNat_ofNat']
  exact Nat.mod_eq_of_lt (wordValue_lt h)

theorem intBytes_intOfBytes {word : List UInt8} (h : word.length = 4) :
    intBytes (intOfBytes word) = word := by
  unfold intBytes intOfBytes
  rw [UInt32.toUInt32_toInt32, toNat_ofNat_wordValue h, wordBytes_wordValue_of_length h]

theorem singleBytes_singleOfBytes {word : List UInt8} (h : word.length = 4) :
    singleBytes (singleOfBytes word) = word := by
  unfold singleBytes singleOfBytes
  rw [toNat_ofNat_wordValue h, wordBytes_wordValue_of_length h]

/-! ## Literals -/

/-- **Readings of a literal:** what is written for a value, and for `true` any byte but zero. -/
inductive Denotes : List UInt8 → Value → Prop where
  | written {v : Value} (hfit : ∀ s, v = .string s → s.utf8ByteSize < wordLimit) :
      Denotes (encode v) v
  | truthy {b : UInt8} (hb : b ≠ 0) : Denotes [3, b] (.bool true)

variable {bytes : Array UInt8} {start offset next : Nat} {v : Value} {text : List UInt8}

theorem Denotes.of_encode (h : encode v = text)
    (hfit : ∀ s, v = .string s → s.utf8ByteSize < wordLimit) : Denotes text v := by
  subst h
  exact .written hfit

theorem Denotes.decode (h : Denotes text v) (hspells : Spells bytes offset text) :
    decode bytes start offset = .ok (v, offset + text.length) := by
  cases h with
  | written hfit =>
      rw [length_encode]
      exact decode_of_spells hspells hfit
  | @truthy b hb =>
      unfold Literal.decode
      rw [hspells.takeByte]
      simp [bind, Except.bind, hspells.tail.takeByte, hb, pure, Except.pure]

/-- A decoder that succeeds has read a text of the value. The cases are those of the tag. -/
theorem denotes_of_decode (h : decode bytes start offset = .ok (v, next)) :
    ∃ text, Denotes text v ∧ Spells bytes offset text ∧ next = offset + text.length := by
  unfold decode at h
  obtain ⟨tag, htag, h⟩ := Attempt.bind_eq_ok h
  have hfirst := Spells.of_getElem? (takeByte_eq_ok.1 htag)
  split at h
  · cases h
    exact ⟨[0], .of_encode (v := .void) rfl (by simp), hfirst, rfl⟩
  · obtain ⟨word, hword, h⟩ := Attempt.bind_eq_ok h
    obtain ⟨hspells, hlength⟩ := Spells.of_slice? (take_eq_ok.1 hword)
    cases h
    refine ⟨[1] ++ word, .of_encode ?_ (by simp), hfirst.append hspells, ?_⟩
    · rw [encode, intBytes_intOfBytes hlength]
      rfl
    · simp [hlength]
  · obtain ⟨word, hword, h⟩ := Attempt.bind_eq_ok h
    obtain ⟨hspells, hlength⟩ := Spells.of_slice? (take_eq_ok.1 hword)
    cases h
    refine ⟨[2] ++ word, .of_encode ?_ (by simp), hfirst.append hspells, ?_⟩
    · rw [encode, singleBytes_singleOfBytes hlength]
      rfl
    · simp [hlength]
  · obtain ⟨b, hbyte, h⟩ := Attempt.bind_eq_ok h
    have hspells := hfirst.append (Spells.of_getElem? (takeByte_eq_ok.1 hbyte))
    cases h
    refine ⟨[3] ++ [b], ?_, hspells, rfl⟩
    by_cases hb : b = 0
    · subst hb
      exact .of_encode (v := .bool false) rfl (by simp)
    · have htrue : (b != 0) = true := by simpa using hb
      rw [htrue]
      exact .truthy hb
  · obtain ⟨word, hword, h⟩ := Attempt.bind_eq_ok h
    obtain ⟨characters, htext, h⟩ := Attempt.bind_eq_ok h
    obtain ⟨hword, hlength⟩ := Spells.of_slice? (take_eq_ok.1 hword)
    obtain ⟨htext, htextLength⟩ := Spells.of_slice? (take_eq_ok.1 htext)
    cases hs : stringOfBytes? characters with
    | none =>
        rw [hs] at h
        cases h
    | some s =>
        rw [hs] at h
        cases h
        -- The length that was read is the length of the string, so it fits in a word.
        have hstring := stringBytes_of_stringOfBytes? hs
        have hsize : s.utf8ByteSize = wordValue word := by
          rw [← length_stringBytes, hstring, htextLength]
        have hfit : s.utf8ByteSize < wordLimit := hsize ▸ wordValue_lt hlength
        have hpayload : Spells bytes (offset + 1) (word ++ characters) :=
          hword.append (by rwa [hlength])
        refine ⟨[4] ++ (word ++ characters), .of_encode ?_ ?_, hfirst.append hpayload, ?_⟩
        · rw [encode, hsize, wordBytes_wordValue_of_length hlength, hstring]
          rfl
        · rintro s' hs'
          cases hs'
          exact hfit
        · simp [hlength, htextLength]
          omega
  · obtain ⟨x, hx, h⟩ := Attempt.bind_eq_ok h
    obtain ⟨y, hy, h⟩ := Attempt.bind_eq_ok h
    obtain ⟨z, hz, h⟩ := Attempt.bind_eq_ok h
    obtain ⟨hspellsX, hlengthX⟩ := Spells.of_slice? (take_eq_ok.1 hx)
    obtain ⟨hspellsY, hlengthY⟩ := Spells.of_slice? (take_eq_ok.1 hy)
    obtain ⟨hspellsZ, hlengthZ⟩ := Spells.of_slice? (take_eq_ok.1 hz)
    cases h
    have hxy : Spells bytes (offset + 1) (x ++ y) := hspellsX.append (by rwa [hlengthX])
    have hxyz : Spells bytes (offset + 1) (x ++ y ++ z) :=
      hxy.append (by rwa [List.length_append, hlengthX, hlengthY])
    refine ⟨[5] ++ (x ++ y ++ z), .of_encode ?_ (by simp), hfirst.append hxyz, ?_⟩
    · simp only [encode, singleBytes_singleOfBytes hlengthX, singleBytes_singleOfBytes hlengthY,
        singleBytes_singleOfBytes hlengthZ]
      rfl
    · simp [hlengthX, hlengthY, hlengthZ]
  · obtain ⟨code, hcode, h⟩ := Attempt.bind_eq_ok h
    have hkind := hfirst.append (Spells.of_getElem? (takeByte_eq_ok.1 hcode))
    cases hk : HandleKind.ofByte? code with
    | none =>
        rw [hk] at h
        cases h
    | some kind =>
        rw [hk] at h
        obtain ⟨word, hword, h⟩ := Attempt.bind_eq_ok h
        obtain ⟨hspells, hlength⟩ := Spells.of_slice? (take_eq_ok.1 hword)
        cases h
        refine ⟨[6] ++ [code] ++ word, .of_encode ?_ (by simp), hkind.append hspells, ?_⟩
        · rw [encode, intBytes_intOfBytes hlength, HandleKind.toByte_of_ofByte? hk]
          rfl
        · simp [hlength]
  · cases h

end Literal

/-! ## Opcodes -/

namespace Opcode

/-- **Readings of an opcode:** what is written for it, and for `push true` any byte but zero. -/
inductive Denotes : List UInt8 → Opcode → Prop where
  | written {o : Opcode} (hfit : o.Fits) : Denotes o.encode o
  | truthy {b : UInt8} (hb : b ≠ 0) : Denotes [0x01, 3, b] (.push (.bool true))

variable {text : List UInt8} {o : Opcode}

theorem Denotes.length (h : Denotes text o) : text.length = o.encodedLength := by
  cases h with
  | written _ => exact length_encode o
  | truthy _ => rfl

/-- Bytes of an instruction as they are written: a Boolean that is neither 0 nor 1 counts as 1. -/
def normalized : List UInt8 → List UInt8
  | [0x01, 3, b] => [0x01, 3, if b = 0 then 0 else 1]
  | text => text

theorem normalized_of_length_ne (h : text.length ≠ 3) : normalized text = text := by
  unfold normalized
  split
  · exact absurd rfl h
  · rfl

/-- What is written is not changed: of the texts of three bytes, it holds only those of a Boolean. -/
theorem normalized_encode (o : Opcode) : normalized o.encode = o.encode := by
  by_cases hlength : o.encode.length = 3
  · cases o with
    | push v =>
        cases v with
        | bool b => cases b <;> rfl
        | void | int n | float x | string s | vector v | handle kind id => rfl
    | memory op a | branch op t | call keeps verb | dup | ret | unary op | binary op => cases hlength
  · exact normalized_of_length_ne hlength

theorem Denotes.encode_eq (h : Denotes text o) : o.encode = normalized text := by
  cases h with
  | written _ => exact (normalized_encode o).symm
  | truthy hb =>
      simp only [normalized, if_neg hb]
      rfl

/-- The only operands that may not fit are strings and addresses. -/
theorem fits_of_address (hpush : ∀ v, o ≠ .push v)
    (haddress : ∀ a, o.address? = some a → a < wordLimit) : o.Fits :=
  ⟨fun _ hs => absurd hs (hpush _), haddress⟩

end Opcode

namespace Instruction

variable {bytes : Array UInt8} {offset next : Nat} {text : List UInt8} {o : Opcode} {i : Instruction}

/-- A tag and a word behind it are an instruction of five bytes. -/
theorem denotes_of_word {tag : UInt8} {word : List UInt8} (htag : bytes[offset]? = some tag)
    (hword : slice? bytes (offset + 1) 4 = some word) (hencode : o.encode = tag :: word)
    (hfit : o.Fits) :
    ∃ text, Opcode.Denotes text o ∧ Spells bytes offset text ∧ offset + 5 = offset + text.length := by
  obtain ⟨hspells, hlength⟩ := Spells.of_slice? hword
  refine ⟨o.encode, .written hfit, ?_, ?_⟩
  · rw [hencode]
    exact (Spells.of_getElem? htag).append hspells
  · rw [hencode, List.length_cons, hlength]

/-- An operand that was read stands behind its tag, and the two are a text of the opcode. -/
theorem denotes_of_readOperand {m : Mnemonic} (htag : bytes[offset]? = some m.tag)
    (h : readOperand bytes offset m = .ok (o, next)) :
    ∃ text, Opcode.Denotes text o ∧ Spells bytes offset text ∧ next = offset + text.length := by
  have hfirst := Spells.of_getElem? htag
  cases m with
  | push =>
      obtain ⟨⟨v, last⟩, hliteral, h⟩ := Attempt.bind_eq_ok h
      obtain ⟨payload, hdenotes, hspells, rfl⟩ := Literal.denotes_of_decode hliteral
      cases h
      refine ⟨[Mnemonic.push.tag] ++ payload, ?_, hfirst.append hspells, by simp; omega⟩
      cases hdenotes with
      | written hfit =>
          refine .written ⟨fun s hs => hfit s (Opcode.push.inj hs), fun a ha => ?_⟩
          cases ha
      | truthy hb => exact .truthy hb
  | memory op | branch op =>
      obtain ⟨word, hword, h⟩ := Attempt.bind_eq_ok h
      rw [Literal.take_eq_ok] at hword
      obtain ⟨-, hlength⟩ := Spells.of_slice? hword
      cases h
      refine denotes_of_word htag hword ?_ (Opcode.fits_of_address (by simp) ?_)
      · exact congrArg _ (wordBytes_wordValue_of_length hlength)
      · rintro a ha
        cases ha
        exact wordValue_lt hlength
  | call keeps =>
      obtain ⟨word, hword, h⟩ := Attempt.bind_eq_ok h
      rw [Literal.take_eq_ok] at hword
      obtain ⟨-, hlength⟩ := Spells.of_slice? hword
      cases h
      refine denotes_of_word htag hword ?_ (Opcode.fits_of_address (by simp) (by simp [Opcode.address?]))
      exact congrArg _ (Literal.intBytes_intOfBytes hlength)
  | dup | ret | unary op | binary op =>
      cases h
      exact ⟨_, .written (Opcode.fits_of_address (by simp) (by simp [Opcode.address?])), hfirst, rfl⟩

/-- A text of an opcode is decoded wherever it stands, if a branch stays inside the program. -/
theorem decode_of_denotes (h : Opcode.Denotes text o) (hspells : Spells bytes offset text)
    (hinside : ∀ target, o.target? = some target → target < bytes.size) :
    decode bytes offset = .ok ⟨o, offset, offset + text.length⟩ := by
  cases h with
  | written hfit =>
      rw [Opcode.length_encode]
      exact decode_of_spells hspells hfit hinside
  | truthy hb =>
      have hliteral : Literal.decode bytes offset (offset + 1) = .ok (.bool true, offset + 1 + 2) :=
        Literal.Denotes.decode (.truthy hb) hspells.tail
      rw [decode_of_tag (m := .push) hspells.getElem?]
      simp [readOperand, hliteral, bind, Except.bind, pure, Except.pure, Opcode.target?]

/-- **What is accepted:** a text of an opcode, with the target of a branch inside the program. -/
theorem decode_eq_ok_iff : decode bytes offset = .ok i ↔
    ∃ text, Opcode.Denotes text i.opcode ∧ Spells bytes offset text ∧
      i.offset = offset ∧ i.next = offset + text.length ∧
      ∀ target, i.opcode.target? = some target → target < bytes.size := by
  constructor
  · intro h
    rcases tag_cases bytes offset with hsize | ⟨tag, htag, hunknown⟩ | ⟨m, htag⟩
    · rw [(Malformed.outside hsize).decode] at h
      cases h
    · rw [(Malformed.tagUnknown htag hunknown).decode] at h
      cases h
    · rw [decode_of_tag htag] at h
      obtain ⟨⟨o, next⟩, hread, hcheck⟩ := Attempt.bind_eq_ok h
      obtain ⟨text, hdenotes, hspells, rfl⟩ := denotes_of_readOperand htag hread
      cases ht : o.target? with
      | none =>
          simp only [ht] at hcheck
          cases hcheck
          refine ⟨text, hdenotes, hspells, rfl, rfl, fun target htarget => ?_⟩
          rw [ht] at htarget
          cases htarget
      | some target =>
          simp only [ht] at hcheck
          split at hcheck
          · rename_i hinside
            cases hcheck
            refine ⟨text, hdenotes, hspells, rfl, rfl, fun target' htarget => ?_⟩
            rw [ht] at htarget
            cases htarget
            exact hinside
          · cases hcheck
  · rintro ⟨text, hdenotes, hspells, rfl, hnext, hinside⟩
    rw [decode_of_denotes hdenotes hspells hinside, ← hnext]

end Instruction

/-! ## Encodings that are cut short -/

section Prefixes

variable {before : List UInt8} {k : Nat}

theorem spells_take (before text : List UInt8) {j k : Nat} (h : j ≤ k) :
    Spells (before ++ text.take k).toArray before.length (text.take j) := by
  have htake : text.take j = (text.take k).take j := by rw [List.take_take, Nat.min_eq_left h]
  refine ⟨before, (text.take k).drop j, ?_, rfl⟩
  rw [htake, List.append_assoc, List.take_append_drop]

theorem size_take {text : List UInt8} (h : k < text.length) :
    (before ++ text.take k).toArray.size = before.length + k := by
  simp only [List.size_toArray, List.length_append, List.length_take]
  omega

/-- A literal that is cut short is truncated. The cases are those of the value, and of how much of what
its length depends on is left. -/
theorem Literal.malformed_take {v : Value} (start : Nat)
    (hfit : ∀ s, v = .string s → s.utf8ByteSize < wordLimit) (hk : k < (encode v).length) :
    Malformed (before ++ (encode v).take k).toArray start before.length
      (.truncatedInstruction start) := by
  have hsize : (before ++ (encode v).take k).toArray.size = before.length + k := size_take hk
  rw [length_encode] at hk
  rcases Nat.eq_zero_or_pos k with rfl | hpos
  · exact .tagMissing (by omega)
  · have htag := spells_take before (encode v) hpos
    cases v with
    | void =>
        simp only [encodedLength] at hk
        omega
    | int n | float x | bool b | vector w =>
        simp only [encodedLength] at hk
        exact .payloadMissing htag.getElem? rfl (by omega)
    | string s =>
        by_cases hlength : k < 5
        · exact .lengthMissing htag.getElem? (by omega)
        · have hspells := spells_take before (encode (.string s)) (Nat.le_of_not_lt hlength)
          have hword : slice? _ (before.length + 1) 4 = some (wordBytes s.utf8ByteSize) :=
            hspells.tail.slice?
          have hvalue : wordValue (wordBytes s.utf8ByteSize) = s.utf8ByteSize := by
            rw [wordValue_wordBytes]
            exact Nat.mod_eq_of_lt (hfit s rfl)
          simp only [encodedLength] at hk
          exact .textMissing htag.getElem? hword (by omega)
    | handle kind id =>
        simp only [encodedLength] at hk
        by_cases hkind : k < 2
        · exact .kindMissing htag.getElem? (by omega)
        · have hcode := (spells_take before (encode (.handle kind id)) (Nat.le_of_not_lt hkind)).tail
          exact .idMissing htag.getElem? hcode.getElem? (by omega)

end Prefixes

namespace Instruction

/-- An instruction that is cut short is truncated. -/
theorem malformed_take {o : Opcode} (before : List UInt8) (hfit : o.Fits) {k : Nat} (hpos : 0 < k)
    (hk : k < o.encode.length) :
    Malformed (before ++ o.encode.take k).toArray before.length
      (.truncatedInstruction before.length) := by
  have htag : (before ++ o.encode.take k).toArray[before.length]? = some o.mnemonic.tag :=
    (spells_take before o.encode hpos).getElem?
  have hsize : (before ++ o.encode.take k).toArray.size = before.length + k := size_take hk
  cases o with
  | push v =>
      -- The rest of the bytes is the literal, which is cut short as well.
      obtain ⟨j, rfl⟩ : ∃ j, k = j + 1 := ⟨k - 1, by omega⟩
      have hrest : before ++ (Opcode.push v).encode.take (j + 1) =
          (before ++ [Mnemonic.push.tag]) ++ (Literal.encode v).take j := by
        simp [Opcode.encode, Opcode.mnemonic, Opcode.operandBytes]
      have hliteral : Literal.Malformed
          ((before ++ [Mnemonic.push.tag]) ++ (Literal.encode v).take j).toArray before.length
          (before ++ [Mnemonic.push.tag]).length (.truncatedInstruction before.length) :=
        Literal.malformed_take before.length (fun s hs => hfit.string s (by rw [hs]))
          (by simpa [Opcode.encode, Opcode.operandBytes] using hk)
      rw [← hrest, List.length_append] at hliteral
      exact .literal htag hliteral
  | memory op a | branch op t | call keeps verb =>
      rw [Opcode.length_encode] at hk
      simp only [Opcode.encodedLength] at hk
      exact .wordMissing htag rfl (by omega)
  | dup | ret | unary op | binary op =>
      rw [Opcode.length_encode] at hk
      simp only [Opcode.encodedLength] at hk
      omega

/-! ## The two directions -/

/-- **Decoding undoes encoding** between any other bytes, if the operand fits and a branch stays inside
them. Of an encoding that is cut short, nothing is said but that it is truncated. -/
theorem decode_encode {o : Opcode} (hfit : o.Fits) (before after : List UInt8) :
    ((∀ target, o.target? = some target → target < (before ++ o.encode ++ after).length) →
      decode (before ++ o.encode ++ after).toArray before.length =
        .ok ⟨o, before.length, before.length + o.encodedLength⟩) ∧
    ∀ k, 0 < k → k < o.encode.length →
      decode (before ++ o.encode.take k).toArray before.length =
        .error (.truncatedInstruction before.length) := by
  constructor
  · intro hinside
    exact decode_of_spells ⟨before, after, rfl, rfl⟩ hfit hinside
  · intro k hpos hk
    exact (malformed_take before hfit hpos hk).decode

/-- A vector whose first component is a NaN with a payload, between two other bytes and one. -/
theorem decode_encode_nan :
    decode ([7, 7] ++ (Opcode.push (.vector ⟨⟨0xffa00001⟩, ⟨0⟩, ⟨0x80000000⟩⟩)).encode ++ [0x32]).toArray 2 =
      .ok ⟨.push (.vector ⟨⟨0xffa00001⟩, ⟨0⟩, ⟨0x80000000⟩⟩), 2, 16⟩ ∧
    decode ([7, 7] ++
      (Opcode.push (.vector ⟨⟨0xffa00001⟩, ⟨0⟩, ⟨0x80000000⟩⟩)).encode.take 13).toArray 2 =
      .error (.truncatedInstruction 2) := by
  have hfit : (Opcode.push (.vector ⟨⟨0xffa00001⟩, ⟨0⟩, ⟨0x80000000⟩⟩)).Fits := by
    constructor
    · intro s hs
      cases hs
    · intro a ha
      cases ha
  obtain ⟨hwhole, hshort⟩ := decode_encode hfit [7, 7] [0x32]
  refine ⟨hwhole ?_, hshort 13 (by decide) (by decide)⟩
  intro target htarget
  cases htarget

/-- **The format is accepted exactly.** What is accepted lies inside the bytes, has the length of its
opcode and is what is written for it, except that any byte but zero reads as true; a branch stays inside,
and bytes elsewhere do not matter, only how many there are. What is refused is refused for the first
thing that is wrong. -/
theorem decode_exact (bytes : Array UInt8) (offset : Nat) :
    (∀ i, decode bytes offset = .ok i →
      i.offset = offset ∧ offset < i.next ∧ i.next ≤ bytes.size ∧
      i.next - offset = i.opcode.encodedLength ∧
      (∀ target, i.opcode.target? = some target → target < bytes.size) ∧
      i.opcode.encode = Opcode.normalized (bytes.extract offset i.next).toList ∧
      ∀ bytes' : Array UInt8, bytes'.size = bytes.size →
        (∀ j, offset ≤ j → j < i.next → bytes'[j]? = bytes[j]?) → decode bytes' offset = .ok i) ∧
    ∀ cause, decode bytes offset = .error cause ↔ Malformed bytes offset cause := by
  refine ⟨fun i hi => ?_, fun cause => decode_eq_error_iff⟩
  obtain ⟨text, hdenotes, hspells, hoffset, hnext, hinside⟩ := decode_eq_ok_iff.1 hi
  have hlength := hdenotes.length
  have hpos := i.opcode.encodedLength_pos
  have hsize := hspells.le_size
  refine ⟨hoffset, by omega, by omega, by omega, hinside, ?_, ?_⟩
  · rw [hnext, hspells.extract]
    exact hdenotes.encode_eq
  · intro bytes' hsize' hsame
    rw [hnext] at hsame
    rw [← hsize'] at hinside
    exact decode_eq_ok_iff.2
      ⟨text, hdenotes, hspells.congr hsize' hsame, hoffset, hnext, hinside⟩

/-- A Boolean of the value 7 is accepted, and behind it the kind of a handle is refused, though the id is
missing as well. -/
theorem decode_exact_handle :
    (decode #[0x01, 3, 7, 0x01, 6, 99] 0 = .ok ⟨.push (.bool true), 0, 3⟩ ∧
      (Opcode.push (.bool true)).encode = Opcode.normalized [0x01, 3, 7]) ∧
    decode #[0x01, 3, 7, 0x01, 6, 99] 3 = .error (.unknownLiteral 99 5) := by
  have hok : decode #[0x01, 3, 7, 0x01, 6, 99] 0 = .ok ⟨.push (.bool true), 0, 3⟩ := by decide
  obtain ⟨-, -, -, -, -, hencode, -⟩ := (decode_exact #[0x01, 3, 7, 0x01, 6, 99] 0).1 _ hok
  refine ⟨⟨hok, hencode⟩, ?_⟩
  apply ((decode_exact #[0x01, 3, 7, 0x01, 6, 99] 3).2 _).2
  exact .literal (by decide) (.kindUnknown (by decide) rfl (Literal.ofByte?_eq_none.1 rfl))

end Instruction
end CogMachine
