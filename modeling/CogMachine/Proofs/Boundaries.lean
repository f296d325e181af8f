import CogMachine.Proofs.Malformed
import CogMachine.Proofs.Places
import Mathlib

/-!
# Boundaries of laid out opcodes

Opcodes that are encoded one after the other start at the sums of the lengths before them. These offsets
and the end are the boundaries. If branches lead to boundaries only, then there is nothing else for the
decoder to find: at every boundary it reads the opcode that was laid out there, or reports that the end of
the program is outside, as the offset asked for or as the target of the branch there.

- `boundary_iff`: a boundary cuts the opcodes in two.
- `Program.decode_of_boundary`, `Program.closed_boundary`: what is decoded at a boundary, and that it leads
  to boundaries again.
- `Program.validate_ofBytes`: a program is invalid exactly if one of its branches leads to the end.
-/

namespace CogMachine

variable {os : List Opcode} {o : Opcode} {n : Nat}

/-- The length of opcodes that are encoded one after the other. -/
def extent (os : List Opcode) : Nat := (os.map Opcode.encodedLength).sum

@[simp] theorem extent_nil : extent [] = 0 := rfl

@[simp] theorem extent_cons (o : Opcode) (os : List Opcode) :
    extent (o :: os) = o.encodedLength + extent os := by
  simp [extent]

@[simp] theorem extent_append (os more : List Opcode) :
    extent (os ++ more) = extent os + extent more := by
  simp [extent]

theorem length_flatMap_encode (os : List Opcode) :
    (os.flatMap Opcode.encode).length = extent os := by
  simp [extent, List.length_flatMap, Opcode.length_encode]

/-- Opcodes have a length, so none is left where the rest has none. -/
theorem extent_eq_zero : extent os = 0 ↔ os = [] := by
  constructor
  · intro h
    rcases os with _ | ⟨o, os⟩
    · rfl
    · have hpos := o.encodedLength_pos
      rw [extent_cons] at h
      omega
  · rintro rfl
    rfl

/-! ## Boundaries -/

/-- **Boundaries:** where an opcode starts, and where the last one ends. -/
def Boundary (os : List Opcode) (n : Nat) : Prop :=
  (∃ i ∈ layout 0 os, i.offset = n) ∨ n = extent os

/-- An instruction is laid out behind those of the opcodes before its own. -/
theorem mem_layout {offset : Nat} {i : Instruction} : i ∈ layout offset os ↔
    ∃ before o after, os = before ++ o :: after ∧
      i = ⟨o, offset + extent before, offset + extent before + o.encodedLength⟩ := by
  induction os generalizing offset with
  | nil => simp [layout]
  | cons o os ih =>
      rw [layout, List.mem_cons, ih]
      constructor
      · rintro (rfl | ⟨before, o', after, rfl, rfl⟩)
        · exact ⟨[], o, os, rfl, rfl⟩
        · exact ⟨o :: before, o', after, rfl, by simp [Nat.add_assoc]⟩
      · rintro ⟨before, o', after, hos, rfl⟩
        rcases before with _ | ⟨first, before⟩
        · obtain ⟨rfl, rfl⟩ := List.cons.inj hos
          exact .inl rfl
        · obtain ⟨rfl, rfl⟩ := List.cons.inj hos
          exact .inr ⟨before, o', after, rfl, by simp [Nat.add_assoc]⟩

/-- **A boundary cuts the opcodes in two.** -/
theorem boundary_iff : Boundary os n ↔ ∃ before after, os = before ++ after ∧ n = extent before := by
  constructor
  · rintro (⟨i, hi, rfl⟩ | rfl)
    · obtain ⟨before, o, after, rfl, rfl⟩ := mem_layout.1 hi
      exact ⟨before, o :: after, rfl, Nat.zero_add _⟩
    · exact ⟨os, [], (List.append_nil os).symm, rfl⟩
  · rintro ⟨before, after, rfl, rfl⟩
    rcases after with _ | ⟨o, after⟩
    · exact .inr (by simp)
    · exact .inl ⟨_, mem_layout.2 ⟨before, o, after, rfl, rfl⟩, Nat.zero_add _⟩

theorem boundary_zero (os : List Opcode) : Boundary os 0 := boundary_iff.2 ⟨[], os, rfl, rfl⟩

theorem Boundary.le_extent (h : Boundary os n) : n ≤ extent os := by
  obtain ⟨before, after, rfl, rfl⟩ := boundary_iff.1 h
  rw [extent_append]
  exact Nat.le_add_right _ _

namespace Program

/-- Opcodes that a program can hold and whose branches lead to boundaries. -/
structure WellAimed (os : List Opcode) : Prop where
  fits : ∀ o ∈ os, o.Fits
  target : ∀ o ∈ os, ∀ t, o.target? = some t → Boundary os t

theorem length_ofBytes (os : List Opcode) :
    (ofBytes (os.flatMap Opcode.encode)).length = extent os := by
  rw [← length_flatMap_encode]
  rfl

/-- A branch to the end of the program is refused where it stands, taken or not. -/
theorem decode_of_target_length {p : Program} (hfit : o.Fits) (h : Spells p.bytes n o.encode)
    (ht : o.target? = some p.length) : p.decode n = .error (.addressOutOfRange p.length p.length) := by
  rcases o with v | _ | ⟨op, a⟩ | ⟨op, t⟩ | ⟨keeps, id⟩ | _ | op | op
  case branch =>
    obtain rfl : t = p.length := Option.some.inj ht
    have hword : slice? p.bytes (n + 1) 4 = some (wordBytes p.length) := h.tail.slice?
    have hvalue : wordValue (wordBytes p.length) = p.length := by
      rw [wordValue_wordBytes]
      exact Nat.mod_eq_of_lt (hfit.address p.length rfl)
    have hmalformed := Instruction.Malformed.targetOutside h.getElem? hword (Nat.le_of_eq hvalue.symm)
    rw [hvalue] at hmalformed
    exact hmalformed.decode
  all_goals cases ht

/-- **Decoding an opcode** where it stands: it is read, or its target is the end of the program. -/
theorem decode_of_spells {p : Program} (hfit : o.Fits) (h : Spells p.bytes n o.encode)
    (htarget : ∀ t, o.target? = some t → t ≤ p.length) :
    (o.target? ≠ some p.length ∧ p.decode n = .ok ⟨o, n, n + o.encodedLength⟩) ∨
      (o.target? = some p.length ∧ p.decode n = .error (.addressOutOfRange p.length p.length)) := by
  by_cases hend : o.target? = some p.length
  · exact .inr ⟨hend, decode_of_target_length hfit h hend⟩
  · refine .inl ⟨hend, Instruction.decode_of_spells h hfit ?_⟩
    intro t ht
    have hne : t ≠ p.length := by
      rintro rfl
      exact hend ht
    exact Nat.lt_of_le_of_ne (htarget t ht) hne

variable {p : Program}

/-- An opcode stands behind those before it. -/
theorem spells_of_append {before after : List Opcode}
    (hp : p = ofBytes ((before ++ o :: after).flatMap Opcode.encode)) :
    Spells p.bytes (extent before) o.encode := by
  refine ⟨before.flatMap Opcode.encode, after.flatMap Opcode.encode, ?_, length_flatMap_encode before⟩
  rw [hp]
  simp [ofBytes]

/-- Opcodes are decoded where they stand, or refused for a target that is the end. -/
theorem decode_of_append {before after : List Opcode}
    (hp : p = ofBytes ((before ++ o :: after).flatMap Opcode.encode))
    (hos : WellAimed (before ++ o :: after)) :
    (o.target? ≠ some p.length ∧
        p.decode (extent before) = .ok ⟨o, extent before, extent before + o.encodedLength⟩) ∨
      (o.target? = some p.length ∧
        p.decode (extent before) = .error (.addressOutOfRange p.length p.length)) := by
  have hmem : o ∈ before ++ o :: after := by simp
  refine decode_of_spells (hos.fits o hmem) (spells_of_append hp) ?_
  intro t ht
  rw [hp, length_ofBytes]
  exact (hos.target o hmem t ht).le_extent

/-- **Decoding at a boundary.** -/
theorem decode_of_boundary (hp : p = ofBytes (os.flatMap Opcode.encode)) (hos : WellAimed os)
    (h : Boundary os n) :
    (∃ i ∈ layout 0 os, i.offset = n ∧ p.decode n = .ok i) ∨
      p.decode n = .error (.addressOutOfRange p.length p.length) := by
  obtain ⟨before, after, rfl, rfl⟩ := boundary_iff.1 h
  rcases after with _ | ⟨o, after⟩
  · have hend : extent before = p.length := by rw [hp, length_ofBytes, List.append_nil]
    refine .inr ?_
    rw [hend]
    exact (Instruction.Malformed.outside (Nat.le_refl p.length)).decode
  · rcases decode_of_append hp hos with ⟨-, hok⟩ | ⟨-, herror⟩
    · have hlaid : (⟨o, extent before, extent before + o.encodedLength⟩ : Instruction) ∈
          layout 0 (before ++ o :: after) :=
        mem_layout.2 ⟨before, o, after, rfl, by rw [Nat.zero_add]⟩
      exact .inl ⟨_, hlaid, rfl, hok⟩
    · exact .inr herror

/-- **Boundaries are closed** under what is decoded at them. -/
theorem closed_boundary {script : Script} (hp : script.program = ofBytes (os.flatMap Opcode.encode))
    (hos : WellAimed os) : Machine.Closed script (Boundary os) := by
  intro n i hn hi
  rcases decode_of_boundary hp hos hn with ⟨j, hj, -, hok⟩ | herror
  · rw [hok] at hi
    cases hi
    obtain ⟨before, o, after, rfl, rfl⟩ := mem_layout.1 hj
    constructor
    · refine boundary_iff.2 ⟨before ++ [o], after, by simp, ?_⟩
      simp
    · exact hos.target o (by simp)
  · rw [herror] at hi
    cases hi

/-- At a boundary the decoder complains of nothing but the end of the program. -/
theorem cause_of_boundary (hp : p = ofBytes (os.flatMap Opcode.encode)) (hos : WellAimed os)
    (h : Boundary os n) {cause : Fault.Cause} (hcause : p.decode n = .error cause) :
    cause = .addressOutOfRange p.length p.length := by
  rcases decode_of_boundary hp hos h with ⟨i, -, -, hok⟩ | herror
  · rw [hok] at hcause
    cases hcause
  · rw [herror] at hcause
    cases hcause
    rfl

/-! ## Validity -/

/-- The rest of a program is refused for its first branch to the end, if it has one. -/
theorem forM_instructionsFrom {cause : Fault.Cause}
    (h : Spells p.bytes n (os.flatMap Opcode.encode)) (hend : n + extent os = p.length)
    (hfit : ∀ o ∈ os, o.Fits) (htarget : ∀ o ∈ os, ∀ t, o.target? = some t → t ≤ p.length) :
    (p.instructionsFrom n).forM (fun i => i.map fun _ => ()) = .error cause ↔
      cause = .addressOutOfRange p.length p.length ∧ ∃ o ∈ os, o.target? = some p.length := by
  induction os generalizing n with
  | nil =>
      rw [extent_nil] at hend
      rw [instructionsFrom, dif_neg (by omega)]
      simp [pure, Except.pure]
  | cons o os ih =>
      rw [List.forall_mem_cons] at hfit htarget
      rw [List.flatMap_cons] at h
      rw [extent_cons] at hend
      have hpos := o.encodedLength_pos
      have hrest : Spells p.bytes (n + o.encodedLength) (os.flatMap Opcode.encode) := by
        rw [← Opcode.length_encode]
        exact h.right
      have hnext := ih hrest (by omega) hfit.2 htarget.2
      have hlt : n < p.length := by omega
      rcases decode_of_spells hfit.1 h.left htarget.1 with ⟨hne, hok⟩ | ⟨heq, herror⟩
      · rw [instructionsFrom_of_ok hlt hok]
        show List.forM (p.instructionsFrom (n + o.encodedLength)) _ = _ ↔ _
        rw [hnext]
        simp [hne]
      · rw [instructionsFrom_of_error hlt herror]
        constructor
        · intro hcause
          cases hcause
          exact ⟨rfl, o, List.mem_cons_self, heq⟩
        · rintro ⟨rfl, -⟩
          rfl

/-- **A program is invalid** exactly if a branch leads to its end. -/
theorem validate_ofBytes (hp : p = ofBytes (os.flatMap Opcode.encode)) (hos : WellAimed os)
    {cause : Fault.Cause} : p.validate = .error cause ↔
      cause = .addressOutOfRange p.length p.length ∧ ∃ o ∈ os, o.target? = some p.length := by
  have hlength : p.length = extent os := by rw [hp, length_ofBytes]
  have hspells : Spells p.bytes 0 (os.flatMap Opcode.encode) := by
    refine ⟨[], [], ?_, rfl⟩
    rw [hp]
    simp [ofBytes]
  refine forM_instructionsFrom hspells (by omega) hos.fits ?_
  intro o ho t ht
  rw [hlength]
  exact (hos.target o ho t ht).le_extent

end Program
end CogMachine
