import CogMachine.Proofs.Boundaries
import Mathlib

/-!
# Recoding

A program is recoded when some of its calls are left out and others call another verb. What stands behind a
call that is left out moves forward, so the targets of branches move, too. `relocate` tells where an offset
goes; all that follows is about boundaries, of which an offset behind an opcode that is left out goes where
the offset before it goes.

- `Recoding.opcodes`: the recoded opcodes.
- `Recoding.relocate_append`: a boundary goes behind what is left of the opcodes in front of it.
- `Recoding.relocate_lt_iff`: only the end goes to the end, if the last opcode stays.
- `Recoding.decode_cases`: what is decoded at a boundary in both programs.
-/

namespace CogMachine

/-- **What becomes of calls:** the verb that is called instead, or none if the call is left out. -/
structure Recoding where
  call? : Bool → VerbId → Option VerbId

namespace Recoding

variable {r : Recoding} {os before after : List Opcode} {o o' : Opcode} {n : Nat}
variable {target : Nat → Nat}

/-! ## Opcodes -/

/-- Whether an opcode stays. -/
def keeps (r : Recoding) : Opcode → Bool
  | .call keeps verb => (r.call? keeps verb).isSome
  | _ => true

/-- What an opcode becomes if targets go where `target` says. -/
def opcode? (r : Recoding) (target : Nat → Nat) : Opcode → Option Opcode
  | .branch op t => some (.branch op (target t))
  | .call keeps verb => (r.call? keeps verb).map (.call keeps)
  | o => some o

/-- **Where an offset goes:** forward by the lengths of the opcodes in front of it that are left out. -/
def relocate (r : Recoding) : List Opcode → Nat → Nat
  | [], n => n
  | o :: os, n =>
    if n < o.encodedLength then n
    else (if r.keeps o then o.encodedLength else 0) + r.relocate os (n - o.encodedLength)

/-- **The recoded opcodes.** -/
def opcodes (r : Recoding) (os : List Opcode) : List Opcode := os.filterMap (r.opcode? (r.relocate os))

theorem exists_opcode? (h : r.keeps o = true) (target : Nat → Nat) :
    ∃ o', r.opcode? target o = some o' := by
  cases o with
  | call keeps verb =>
      obtain ⟨verb', hverb⟩ := Option.isSome_iff_exists.1 h
      exact ⟨.call keeps verb', by simp [opcode?, hverb]⟩
  | push | dup | memory | branch | ret | unary | binary => exact ⟨_, rfl⟩

theorem opcode?_eq_none (h : r.keeps o = false) (target : Nat → Nat) : r.opcode? target o = none := by
  cases o with
  | call keeps verb =>
      have hnone : r.call? keeps verb = none := by simpa [Recoding.keeps] using h
      simp [opcode?, hnone]
  | push | dup | memory | branch | ret | unary | binary => cases h

theorem keeps_of_opcode? (h : r.opcode? target o = some o') : r.keeps o = true := by
  by_contra hnot
  rw [opcode?_eq_none (Bool.eq_false_of_not_eq_true hnot)] at h
  cases h

/-- An opcode that stays keeps its length. -/
theorem encodedLength_of_opcode? (h : r.opcode? target o = some o') :
    o'.encodedLength = o.encodedLength := by
  cases o with
  | call keeps verb =>
      obtain ⟨verb', -, rfl⟩ := Option.map_eq_some_iff.1 h
      rfl
  | push | dup | memory | branch | ret | unary | binary =>
      cases h
      rfl

theorem target?_of_opcode? (h : r.opcode? target o = some o') : o'.target? = o.target?.map target := by
  cases o with
  | call keeps verb =>
      obtain ⟨verb', -, rfl⟩ := Option.map_eq_some_iff.1 h
      rfl
  | push | dup | memory | branch | ret | unary | binary =>
      cases h
      rfl

/-- An operand that the format can hold stays one, if no target goes back. -/
theorem fits_of_opcode? (htarget : ∀ t, target t ≤ t) (hfits : o.Fits)
    (h : r.opcode? target o = some o') : o'.Fits := by
  cases o with
  | call keeps verb =>
      obtain ⟨verb', -, rfl⟩ := Option.map_eq_some_iff.1 h
      constructor
      · rintro s ⟨⟩
      · rintro a ⟨⟩
  | branch op t =>
      cases h
      constructor
      · rintro s ⟨⟩
      · rintro a ⟨⟩
        exact Nat.lt_of_le_of_lt (htarget t) (hfits.address t rfl)
  | push | dup | memory | ret | unary | binary =>
      cases h
      exact hfits

/-! ## Offsets -/

theorem relocate_zero (r : Recoding) (os : List Opcode) : r.relocate os 0 = 0 := by
  cases os with
  | nil => rfl
  | cons o os => rw [relocate, if_pos o.encodedLength_pos]

theorem relocate_le (r : Recoding) (os : List Opcode) (n : Nat) : r.relocate os n ≤ n := by
  induction os generalizing n with
  | nil => exact Nat.le_refl n
  | cons o os ih =>
      rw [relocate]
      have hrest := ih (n - o.encodedLength)
      split
      · exact Nat.le_refl n
      · split <;> omega

/-- If all opcodes stay, every offset stays. -/
theorem relocate_eq_self (h : ∀ o ∈ os, r.keeps o = true) (n : Nat) : r.relocate os n = n := by
  induction os generalizing n with
  | nil => rfl
  | cons o os ih =>
      rw [List.forall_mem_cons] at h
      rw [relocate, if_pos h.1, ih h.2]
      split <;> omega

/-- **A boundary** goes behind what is left of the opcodes in front of it. -/
theorem relocate_append (r : Recoding) (before after : List Opcode) (target : Nat → Nat) :
    r.relocate (before ++ after) (extent before) = extent (before.filterMap (r.opcode? target)) := by
  induction before with
  | nil => exact r.relocate_zero after
  | cons o before ih =>
      rw [List.cons_append, relocate, extent_cons, if_neg (by omega), Nat.add_sub_cancel_left, ih]
      cases ho : r.keeps o with
      | true =>
          obtain ⟨o', ho'⟩ := exists_opcode? ho target
          rw [List.filterMap_cons_some ho', extent_cons, encodedLength_of_opcode? ho', if_pos rfl]
      | false =>
          rw [List.filterMap_cons_none (opcode?_eq_none ho target), if_neg Bool.false_ne_true,
            Nat.zero_add]

/-- **The next boundary** goes behind what is left of the opcode. -/
theorem relocate_next (r : Recoding) (before after : List Opcode) (o : Opcode) :
    r.relocate (before ++ o :: after) (extent before + o.encodedLength) =
      r.relocate (before ++ o :: after) (extent before) +
        extent ([o].filterMap (r.opcode? (r.relocate (before ++ o :: after)))) := by
  have hnext := r.relocate_append (before ++ [o]) after (r.relocate (before ++ o :: after))
  rw [List.append_assoc, extent_append, extent_cons, extent_nil, Nat.add_zero, List.filterMap_append,
    extent_append, ← r.relocate_append before (o :: after)] at hnext
  exact hnext

/-- What is appended does not change where an offset in front of it goes. -/
theorem relocate_append_of_le (r : Recoding) (after : List Opcode) (h : n ≤ extent before) :
    r.relocate (before ++ after) n = r.relocate before n := by
  induction before generalizing n with
  | nil =>
      rw [Nat.le_zero.1 h, relocate_zero, relocate_zero]
  | cons o before ih =>
      rw [extent_cons] at h
      rw [List.cons_append, relocate, relocate]
      split
      · rfl
      · rw [ih (by omega)]

/-- Where offsets go depends on the lengths, and on what is left out. -/
theorem relocate_congr {os' : List Opcode} (h : List.Forall₂ (fun o o' =>
    o'.encodedLength = o.encodedLength ∧ r.keeps o' = r.keeps o) os os') :
    r.relocate os' = r.relocate os := by
  funext n
  induction h generalizing n with
  | nil => rfl
  | cons hhead _ ih => rw [relocate, relocate, hhead.1, hhead.2, ih]

theorem relocate_extent (r : Recoding) (os : List Opcode) :
    r.relocate os (extent os) = extent (r.opcodes os) := by
  have h := r.relocate_append os [] (r.relocate os)
  rwa [List.append_nil] at h

theorem opcodes_append (r : Recoding) (before after : List Opcode) :
    r.opcodes (before ++ after) =
      before.filterMap (r.opcode? (r.relocate (before ++ after))) ++
        after.filterMap (r.opcode? (r.relocate (before ++ after))) :=
  List.filterMap_append

/-- Boundaries go to boundaries. -/
theorem boundary_relocate (r : Recoding) (h : Boundary os n) :
    Boundary (r.opcodes os) (r.relocate os n) := by
  obtain ⟨before, after, rfl, rfl⟩ := boundary_iff.1 h
  exact boundary_iff.2 ⟨_, _, r.opcodes_append before after, r.relocate_append before after _⟩

/-- **Only the end goes to the end,** if the last opcode stays. -/
theorem relocate_eq_extent (hlast : ∀ o, os.getLast? = some o → r.keeps o = true)
    (h : Boundary os n) : r.relocate os n = extent (r.opcodes os) ↔ n = extent os := by
  constructor
  · intro heq
    obtain ⟨before, after, rfl, rfl⟩ := boundary_iff.1 h
    rw [r.relocate_append before after (r.relocate (before ++ after)), r.opcodes_append,
      extent_append] at heq
    have hzero : extent (after.filterMap (r.opcode? (r.relocate (before ++ after)))) = 0 := by omega
    have hnone := extent_eq_zero.1 hzero
    rw [List.filterMap_eq_nil_iff] at hnone
    rcases List.eq_nil_or_concat after with rfl | ⟨front, o, rfl⟩
    · simp
    · have hkept : r.keeps o = true := hlast o (by simp)
      obtain ⟨o', ho'⟩ := exists_opcode? hkept (r.relocate (before ++ front.concat o))
      have hleft := hnone o (by simp)
      rw [ho'] at hleft
      cases hleft
  · rintro rfl
    exact r.relocate_extent os

theorem relocate_lt_iff (hlast : ∀ o, os.getLast? = some o → r.keeps o = true)
    (h : Boundary os n) : r.relocate os n < extent (r.opcodes os) ↔ n < extent os := by
  have hle := h.le_extent
  have hle' := (r.boundary_relocate h).le_extent
  have heq := relocate_eq_extent hlast h
  omega

/-- **Recoded opcodes** are as well aimed. -/
theorem wellAimed_opcodes (r : Recoding) (hos : Program.WellAimed os) :
    Program.WellAimed (r.opcodes os) := by
  constructor
  · intro o' ho'
    obtain ⟨o, ho, heq⟩ := List.mem_filterMap.1 ho'
    exact fits_of_opcode? (r.relocate_le os) (hos.fits o ho) heq
  · intro o' ho' t' ht'
    obtain ⟨o, ho, heq⟩ := List.mem_filterMap.1 ho'
    rw [target?_of_opcode? heq] at ht'
    obtain ⟨t, ht, rfl⟩ := Option.map_eq_some_iff.1 ht'
    exact r.boundary_relocate (hos.target o ho t ht)

/-! ## Decoding -/

section Decoding

variable {p p' : Program}

/-- **Decoding at a boundary** of a program and where the boundary goes in the recoded one. Either both
refuse the end, or both find an opcode that stays, or there is one that is left out. -/
theorem decode_cases (hp : p = .ofBytes (os.flatMap Opcode.encode))
    (hp' : p' = .ofBytes ((r.opcodes os).flatMap Opcode.encode)) (hos : Program.WellAimed os)
    (hlast : ∀ o, os.getLast? = some o → r.keeps o = true) (h : Boundary os n) :
    (p.decode n = .error (.addressOutOfRange p.length p.length) ∧
      p'.decode (r.relocate os n) = .error (.addressOutOfRange p'.length p'.length)) ∨
    (∃ o ∈ os, ∃ o', r.opcode? (r.relocate os) o = some o' ∧
      p.decode n = .ok ⟨o, n, n + o.encodedLength⟩ ∧
      p'.decode (r.relocate os n) =
        .ok ⟨o', r.relocate os n, r.relocate os (n + o.encodedLength)⟩) ∨
    (∃ o ∈ os, r.keeps o = false ∧ p.decode n = .ok ⟨o, n, n + o.encodedLength⟩ ∧
      r.relocate os (n + o.encodedLength) = r.relocate os n) := by
  have hlength : p.length = extent os := by rw [hp, Program.length_ofBytes]
  have hlength' : p'.length = extent (r.opcodes os) := by rw [hp', Program.length_ofBytes]
  have hos' := r.wellAimed_opcodes hos
  obtain ⟨before, after, rfl, rfl⟩ := boundary_iff.1 h
  rcases after with _ | ⟨o, after⟩
  · have hend : extent before = p.length := by rw [hlength, List.append_nil]
    have hend' : r.relocate (before ++ []) (extent before) = p'.length := by
      rw [hlength', ← r.relocate_extent, List.append_nil]
    refine .inl ⟨?_, ?_⟩
    · rw [hend]
      exact (Instruction.Malformed.outside (Nat.le_refl p.length)).decode
    · rw [hend']
      exact (Instruction.Malformed.outside (Nat.le_refl p'.length)).decode
  · have hmem : o ∈ before ++ o :: after := by simp
    have hnext := r.relocate_next before after o
    have hfound := Program.decode_of_append hp hos
    cases ho : r.keeps o with
    | false =>
        -- Only calls are left out, and these are never refused.
        have htarget : o.target? = none := by
          cases o with
          | call => rfl
          | push | dup | memory | branch | ret | unary | binary => cases ho
        rw [htarget] at hfound
        have hnone : [o].filterMap (r.opcode? (r.relocate (before ++ o :: after))) = [] := by
          rw [List.filterMap_cons_none (opcode?_eq_none ho _), List.filterMap_nil]
        rw [hnone] at hnext
        rcases hfound with ⟨-, hdecode⟩ | ⟨hcontra, -⟩
        · exact .inr (.inr ⟨o, hmem, ho, hdecode, hnext⟩)
        · cases hcontra
    | true =>
        obtain ⟨o', ho'⟩ := exists_opcode? ho (r.relocate (before ++ o :: after))
        have hone : [o].filterMap (r.opcode? (r.relocate (before ++ o :: after))) = [o'] := by
          rw [List.filterMap_cons_some ho', List.filterMap_nil]
        rw [hone, extent_cons, extent_nil, Nat.add_zero] at hnext
        have hrecoded := r.opcodes_append before (o :: after)
        rw [List.filterMap_cons_some ho'] at hrecoded
        rw [hrecoded] at hp' hos'
        have hfound' := Program.decode_of_append hp' hos'
        rw [← r.relocate_append before (o :: after) (r.relocate (before ++ o :: after))] at hfound'
        -- A target is the end of one program exactly if it goes to the end of the other.
        have htarget : o'.target? = some p'.length ↔ o.target? = some p.length := by
          rw [target?_of_opcode? ho', hlength, hlength']
          constructor
          · intro heq
            obtain ⟨t, ht, heq⟩ := Option.map_eq_some_iff.1 heq
            rw [ht, (relocate_eq_extent hlast (hos.target o hmem t ht)).1 heq]
          · intro heq
            rw [heq, Option.map_some, r.relocate_extent]
        rcases hfound with ⟨hne, hdecode⟩ | ⟨heq, herror⟩
        · rcases hfound' with ⟨-, hdecode'⟩ | ⟨hcontra, -⟩
          · rw [← hnext] at hdecode'
            exact .inr (.inl ⟨o, hmem, o', ho', hdecode, hdecode'⟩)
          · exact absurd (htarget.1 hcontra) hne
        · rcases hfound' with ⟨hne, -⟩ | ⟨-, herror'⟩
          · exact absurd (htarget.2 heq) hne
          · exact .inl ⟨herror, herror'⟩

end Decoding

end Recoding
end CogMachine
