import CogMachine.Proofs.Decoding
import CogMachine.Proofs.Unbroken

/-!
# Programs are tiled by their instructions

Decoding a program from its start goes from instruction to instruction, and each starts where the one before
it ended. So it comes to an end for any bytes at all: at the end of the program, or at the first thing that is
wrong.

- `Program.Walk`: the decoder as it is asked for one instruction after the other.
- `Program.exists_tiles`: the instructions that are found, and how the search for more ends.
- `Program.Tiles.recoded`: what the tiles were read from, against what is written for them.
- `Program.instructions_tile`: all of it, for the walk, validity and the listing.
-/

namespace CogMachine

/-! ## Bytes of one instruction -/

/-- A byte of a text is found where the text stands. -/
theorem Spells.getElem?_add {bytes : Array UInt8} {offset k : Nat} {text : List UInt8}
    (h : Spells bytes offset text) (hk : k < text.length) : bytes[offset + k]? = text[k]? := by
  obtain ⟨before, after, rfl, rfl⟩ := h
  rw [List.getElem?_toArray, List.append_assoc, List.getElem?_append_right (by omega),
    Nat.add_sub_cancel_left, List.getElem?_append_left hk]

/-- **Loose:** the byte is the operand of an instruction that pushes `true`, and it is neither 0 nor 1. -/
structure Instruction.Loose (bytes : Array UInt8) (i : Instruction) (place : Nat) : Prop where
  opcode : i.opcode = .push (.bool true)
  operand : place = i.offset + 2
  byte : ∃ b, bytes[place]? = some b ∧ b ≠ 0 ∧ b ≠ 1

/-- What is written for an instruction differs from what it was read from in a loose byte, if at all. -/
theorem Instruction.getElem?_encode_ne_iff {bytes : Array UInt8} {offset k : Nat} {i : Instruction}
    (h : decode bytes offset = .ok i) (hk : k < i.opcode.encodedLength) :
    i.opcode.encode[k]? ≠ bytes[offset + k]? ↔ i.Loose bytes (offset + k) := by
  obtain ⟨text, hdenotes, hspells, hoffset, -, -⟩ := decode_eq_ok_iff.1 h
  have hlength := hdenotes.length
  have hbyte := hspells.getElem?_add (hlength.symm ▸ hk)
  obtain ⟨o, start, next⟩ := i
  dsimp only at hoffset hdenotes hk ⊢
  subst hoffset
  cases hdenotes with
  | written _ =>
      refine ⟨fun hne => absurd hbyte.symm hne, fun hloose => ?_⟩
      -- The operand of a Boolean that was written is 1.
      obtain ⟨hopcode, hoperand, b, hb, -, hone⟩ := hloose
      dsimp only at hopcode hoperand
      obtain rfl : k = 2 := by omega
      subst hopcode
      rw [hbyte] at hb
      exact absurd (Option.some.inj hb).symm hone
  | @truthy b hzero =>
      have hk : k < 3 := hk
      rw [hbyte]
      constructor
      · intro hne
        obtain rfl : k = 2 := by
          by_contra htwo
          obtain rfl | rfl : k = 0 ∨ k = 1 := by omega
          · exact hne rfl
          · exact hne rfl
        refine ⟨rfl, rfl, b, hbyte, hzero, ?_⟩
        rintro rfl
        exact hne rfl
      · rintro ⟨-, hoperand, b', hb', -, hone⟩ heq
        dsimp only at hoperand
        obtain rfl : k = 2 := by omega
        rw [hbyte, ← heq] at hb'
        exact hone (Option.some.inj hb').symm

namespace Program

variable {p : Program} {n last : Nat} {is : List Instruction} {i : Instruction}

/-! ## Asking for instructions -/

/-- Where a decoder is, and whether it has found something wrong. -/
structure Walk where
  offset : Nat
  failed : Bool

namespace Walk

def start : Walk := ⟨0, false⟩

/-- **The next item** of a program, unless its end was reached or something was wrong before. -/
def next? (p : Program) (w : Walk) : Option (Except Fault.Cause Instruction × Walk) :=
  if w.failed || p.length ≤ w.offset then none
  else
    match p.decode w.offset with
    | .ok i => some (.ok i, { w with offset := i.next })
    | .error cause => some (.error cause, { w with failed := true })

/-- The items that are found by asking so many times. -/
def found (p : Program) : Nat → Walk → List (Except Fault.Cause Instruction)
  | 0, _ => []
  | n + 1, w =>
    match w.next? p with
    | none => []
    | some (item, w) => item :: found p n w

theorem found_failed (p : Program) (n offset : Nat) : found p n ⟨offset, true⟩ = [] := by
  cases n with
  | zero => rfl
  | succ n => rfl

/-- **A walk** finds the instructions of the program and then nothing, if it is asked once for each byte
that is left. The induction is on the number of times. -/
theorem found_eq (p : Program) {times offset : Nat} (h : p.length ≤ offset + times) :
    found p times ⟨offset, false⟩ = p.instructionsFrom offset := by
  induction times generalizing offset with
  | zero =>
      rw [instructionsFrom, dif_neg (by omega)]
      rfl
  | succ times ih =>
      by_cases hend : p.length ≤ offset
      · rw [instructionsFrom, dif_neg (by omega)]
        simp [found, next?, hend]
      · cases hdecode : p.decode offset with
        | ok i =>
            have hforward : offset < i.next := (Instruction.offset_lt_next hdecode).2
            rw [instructionsFrom_of_ok (by omega) hdecode, ← ih (by omega)]
            simp [found, next?, hend, hdecode]
        | error cause =>
            rw [instructionsFrom_of_error (by omega) hdecode]
            simp [found, next?, hend, hdecode, found_failed]

end Walk

/-! ## Tiles -/

/-- **Tiles:** instructions of the program from one offset to another, each decoded where the one before it
ends. -/
inductive Tiles (p : Program) : Nat → List Instruction → Nat → Prop where
  | nil {n : Nat} : Tiles p n [] n
  | cons {n last : Nat} {i : Instruction} {is : List Instruction} (decoded : p.decode n = .ok i)
      (starts : i.offset = n) (forward : n < i.next) (inside : i.next ≤ p.length)
      (rest : Tiles p i.next is last) : Tiles p n (i :: is) last

/-- Every tile has a byte at least. -/
theorem Tiles.length_le (h : p.Tiles n is last) : n + is.length ≤ last := by
  induction h with
  | nil => simp
  | cons _ _ _ _ _ ih =>
      rw [List.length_cons]
      omega

theorem Tiles.le_offset (h : p.Tiles n is last) : ∀ i ∈ is, n ≤ i.offset := by
  induction h with
  | nil => simp
  | cons _ _ _ _ _ ih =>
      rw [List.forall_mem_cons]
      exact ⟨by omega, fun i hi => by have := ih i hi; omega⟩

/-- A decoded instruction is inside the program and has the length of its opcode. -/
theorem next_of_decode (h : p.decode n = .ok i) :
    i.offset = n ∧ n < i.next ∧ i.next ≤ p.length ∧ i.next = n + i.opcode.encodedLength := by
  obtain ⟨hoffset, hforward, hinside, hlength, -⟩ := (Instruction.decode_exact p.bytes n).1 i h
  exact ⟨hoffset, hforward, hinside, by omega⟩

/-- **What is written for tiles** is as long as what they were read from, and the same but for loose
bytes. -/
theorem Tiles.recoded (h : p.Tiles n is last) :
    n + (is.flatMap (·.opcode.encode)).length = last ∧
      ∀ k, n + k < last → ((is.flatMap (·.opcode.encode))[k]? ≠ p.bytes[n + k]? ↔
        ∃ i ∈ is, i.Loose p.bytes (n + k)) := by
  induction h with
  | nil => exact ⟨rfl, fun k hk => by omega⟩
  | @cons n last i is decoded starts forward inside rest ih =>
      obtain ⟨hlength, hsame⟩ := ih
      obtain ⟨-, -, -, hnext⟩ := next_of_decode decoded
      rw [List.flatMap_cons]
      refine ⟨by rw [List.length_append, Opcode.length_encode]; omega, ?_⟩
      intro k hk
      simp only [List.mem_cons, exists_eq_or_imp]
      by_cases hfirst : k < i.opcode.encodedLength
      · -- A byte of the first tile is loose in no other: the others start behind it.
        have hothers : ¬∃ j ∈ is, j.Loose p.bytes (n + k) := by
          rintro ⟨j, hj, hloose⟩
          have hle := rest.le_offset j hj
          have hoperand := hloose.operand
          omega
        rw [List.getElem?_append_left (by rwa [Opcode.length_encode]),
          Instruction.getElem?_encode_ne_iff decoded hfirst, or_iff_left hothers]
      · have hnotFirst : ¬i.Loose p.bytes (n + k) := by
          intro hloose
          have hoperand := hloose.operand
          rw [hloose.opcode] at hfirst
          simp only [Opcode.encodedLength, Literal.encodedLength] at hfirst
          omega
        have hrest := hsame (k - i.opcode.encodedLength) (by omega)
        have hplace : i.next + (k - i.opcode.encodedLength) = n + k := by omega
        rw [hplace] at hrest
        rw [List.getElem?_append_right (by rw [Opcode.length_encode]; omega), Opcode.length_encode,
          hrest, or_iff_right hnotFirst]

/-- **Search:** from any offset inside, the instructions found are tiles, up to the end of the program or to
the first thing that is wrong. The induction is on the bytes that are left. -/
theorem exists_tiles (p : Program) {n : Nat} (hn : n ≤ p.length) :
    ∃ is last, p.Tiles n is last ∧
      (last = p.length ∧ p.instructionsFrom n = is.map .ok ∨
        last < p.length ∧ ∃ cause, p.decode last = .error cause ∧
          p.instructionsFrom n = is.map .ok ++ [.error cause]) := by
  induction hleft : p.length - n using Nat.strongRecOn generalizing n with
  | ind left ih =>
      by_cases hend : n = p.length
      · subst hend
        refine ⟨[], p.length, .nil, .inl ⟨rfl, ?_⟩⟩
        rw [instructionsFrom, dif_neg (by omega)]
        rfl
      · cases hdecode : p.decode n with
        | error cause =>
            exact ⟨[], n, .nil, .inr ⟨by omega, cause, hdecode,
              instructionsFrom_of_error (by omega) hdecode⟩⟩
        | ok i =>
            obtain ⟨hoffset, hforward, hinside, -⟩ := next_of_decode hdecode
            obtain ⟨is, last, htiles, hsearch⟩ := ih (p.length - i.next) (by omega) hinside rfl
            refine ⟨i :: is, last, .cons hdecode hoffset hforward hinside htiles, ?_⟩
            rw [instructionsFrom_of_ok (by omega) hdecode]
            rcases hsearch with ⟨hlast, hfound⟩ | ⟨hlast, cause, herror, hfound⟩
            · exact .inl ⟨hlast, by rw [hfound]; rfl⟩
            · exact .inr ⟨hlast, cause, herror, by rw [hfound]; rfl⟩

/-! ## The two ends -/

/-- **Decoded to the end:** the program is valid, its listing has a line for each instruction, and what is
written for the instructions is the program again but for loose bytes. -/
structure Decoded (p : Program) (is : List Instruction) : Prop where
  found : p.instructions = is.map .ok
  tiles : p.Tiles 0 is p.length
  validate : p.validate = .ok ()
  listing : ∃ listing, p.listing = .ok listing ∧ Text.lines listing.toList = is.map Instruction.listed
  recodedLength : (is.flatMap (·.opcode.encode)).length = p.length
  recoded : ∀ k, (is.flatMap (·.opcode.encode))[k]? ≠ p.bytes[k]? ↔ ∃ i ∈ is, i.Loose p.bytes k

/-- **Decoded to a fault:** the last item alone is one, and whoever reads the program reports it. -/
structure Faulty (p : Program) (is : List Instruction) (cause : Fault.Cause) : Prop where
  found : p.instructions = is.map .ok ++ [.error cause]
  tiles : ∃ last, p.Tiles 0 is last ∧ last < p.length ∧ p.decode last = .error cause
  validate : p.validate = .error cause
  listing : p.listing = .error cause

theorem decoded_of_tiles (hfound : p.instructions = is.map .ok) (htiles : p.Tiles 0 is p.length) :
    p.Decoded is := by
  obtain ⟨hlength, hsame⟩ := htiles.recoded
  rw [Nat.zero_add] at hlength
  simp only [Nat.zero_add] at hsame
  refine ⟨hfound, htiles, ?_, ⟨String.join (is.map line), ?_, lines_join_line is⟩, hlength, ?_⟩
  · rw [validate, hfound, ← List.append_nil (is.map _), Attempt.forM_map_ok_append fun _ => rfl]
    rfl
  · rw [listing, hfound, Attempt.mapM_id_map_ok]
    rfl
  · intro k
    by_cases hk : k < p.length
    · exact hsame k hk
    · have hnone : p.bytes[k]? = none := Array.getElem?_eq_none (Nat.not_lt.1 hk)
      rw [hnone, List.getElem?_eq_none (by omega)]
      refine ⟨fun hne => absurd rfl hne, ?_⟩
      rintro ⟨i, -, hloose⟩
      obtain ⟨b, hb, -⟩ := hloose.byte
      rw [hnone] at hb
      cases hb

theorem faulty_of_tiles {cause : Fault.Cause} (hfound : p.instructions = is.map .ok ++ [.error cause])
    (htiles : p.Tiles 0 is last) (hlast : last < p.length) (herror : p.decode last = .error cause) :
    p.Faulty is cause := by
  refine ⟨hfound, ⟨last, htiles, hlast, herror⟩, ?_, ?_⟩
  · rw [validate, hfound, Attempt.forM_map_ok_append fun _ => rfl]
    rfl
  · have hok : ∀ item ∈ is.map (Except.ok (ε := Fault.Cause)), ∃ i, id item = .ok i := by
      intro item hitem
      obtain ⟨i, -, rfl⟩ := List.mem_map.1 hitem
      exact ⟨i, rfl⟩
    rw [listing, hfound, Attempt.mapM_eq_error hok rfl]
    rfl

/-- **Instructions tile their program,** whatever its bytes are. Asking for them ends after as many times as
there are bytes, and either the program is decoded to its end or up to one fault. -/
theorem instructions_tile (p : Program) :
    (∀ times, p.length ≤ times → Walk.found p times .start = p.instructions) ∧
      p.instructions.length ≤ p.length ∧
      ((∃ is, p.Decoded is) ∨ ∃ is cause, p.Faulty is cause) := by
  refine ⟨fun times h => Walk.found_eq p (by omega), ?_⟩
  obtain ⟨is, last, htiles, ⟨rfl, hfound⟩ | ⟨hlast, cause, herror, hfound⟩⟩ :=
    exists_tiles p (Nat.zero_le p.length)
  · have hlength := htiles.length_le
    refine ⟨?_, .inl ⟨is, decoded_of_tiles hfound htiles⟩⟩
    rw [instructions, hfound, List.length_map]
    omega
  · have hlength := htiles.length_le
    refine ⟨?_, .inr ⟨is, cause, faulty_of_tiles hfound htiles hlast herror⟩⟩
    rw [instructions, hfound, List.length_append, List.length_map, List.length_singleton]
    omega

/-- A Boolean of the value 7 is loose: read again, the program has a 1 in its place. -/
example : (ofBytes [0x01, 3, 7]).instructions = [.ok ⟨.push (.bool true), 0, 3⟩] ∧
    (Opcode.push (.bool true)).encode = [0x01, 3, 1] := by
  rw [instructions, instructionsFrom_of_ok (i := ⟨.push (.bool true), 0, 3⟩) (by decide) (by decide),
    instructionsFrom, dif_neg (by decide)]
  decide

end Program
end CogMachine
