import CogMachine.Bytecode.Builder
import CogMachine.Proofs.Attempt
import Mathlib

/-!
# What a builder has recorded

A builder writes bytes at once and comes back to the operands of branches at the end. Here its state is
described by the list of what was appended: the bytes encode placeholders, the fixups stand at the
operands of the branches, and the overflow is the first one of the list. `Builder.finish_of_records`
then says that finishing is the same as giving each branch the offset of its label and encoding once.
-/

namespace CogMachine

/-! ## What was appended -/

/-- What was appended: a complete opcode, or a branch to a label. -/
inductive Appended where
  | opcode (o : Opcode)
  | branch (op : BranchOp) (label : Label)
  deriving DecidableEq, Inhabited, Repr

namespace Appended

/-- What stands for it until the labels have their offsets. -/
def placeholder : Appended → Opcode
  | opcode o => o
  | branch op _ => .branch op 0

def length (a : Appended) : Nat := a.placeholder.encodedLength

/-- An address that the operand of a complete opcode cannot hold. -/
def overflow? : Appended → Option Nat
  | opcode o => o.address?.filter (wordLimit ≤ ·)
  | branch _ _ => none

/-- The operands to be written later, if the first item is encoded at an offset. -/
def fixupsFrom (offset : Nat) : List Appended → List Fixup
  | [] => []
  | opcode o :: rest => fixupsFrom (offset + o.encodedLength) rest
  | branch _ l :: rest => ⟨offset + 1, l⟩ :: fixupsFrom (offset + 5) rest

def draftBytes (items : List Appended) : List UInt8 := items.flatMap (·.placeholder.encode)

theorem length_draftBytes (items : List Appended) :
    (draftBytes items).length = (items.map length).sum := by
  unfold draftBytes
  rw [List.length_flatMap]
  simp only [Opcode.length_encode]
  rfl

theorem fixupsFrom_append (offset : Nat) (items more : List Appended) :
    fixupsFrom offset (items ++ more) =
      fixupsFrom offset items ++ fixupsFrom (offset + (items.map length).sum) more := by
  induction items generalizing offset with
  | nil => rfl
  | cons a items ih =>
      cases a with
      | opcode o =>
          show fixupsFrom (offset + o.encodedLength) (items ++ more) = _
          rw [ih]
          simp [fixupsFrom, length, placeholder, Nat.add_assoc]
      | branch op l =>
          show ⟨offset + 1, l⟩ :: fixupsFrom (offset + 5) (items ++ more) = _
          rw [ih]
          simp [fixupsFrom, length, placeholder, Opcode.encodedLength, Nat.add_assoc]

end Appended

namespace Builder

open Appended (draftBytes fixupsFrom)

variable {b : Builder} {items : List Appended}

/-- **The record.** A builder is what it becomes when the items are appended in order. -/
structure Records (b : Builder) (items : List Appended) : Prop where
  bytes : b.bytes.toList = draftBytes items
  fixups : b.fixups.toList = fixupsFrom 0 items
  overflow : b.overflow = items.findSome? Appended.overflow?

namespace Records

theorem empty : Records .empty [] := ⟨rfl, rfl, rfl⟩

theorem offset_eq (h : b.Records items) : b.offset = (items.map Appended.length).sum := by
  unfold offset
  rw [← Array.length_toList, h.bytes, Appended.length_draftBytes]

theorem append (h : b.Records items) (o : Opcode) :
    (b.append o).Records (items ++ [.opcode o]) := by
  refine ⟨?_, ?_, ?_⟩
  · simp [Builder.append, h.bytes, draftBytes, Appended.placeholder]
  · rw [Appended.fixupsFrom_append]
    simp [Builder.append, h.fixups, fixupsFrom]
  · rw [List.findSome?_append, ← h.overflow]
    simp [Builder.append, Appended.overflow?]

theorem appendBranch (h : b.Records items) (op : BranchOp) (l : Label) :
    (b.appendBranch op l).Records (items ++ [.branch op l]) := by
  -- The operand is the last word of five bytes, so it starts one after the old offset.
  have hposition : (b.bytes ++ (Opcode.branch op 0).encode.toArray).size - 4 = b.offset + 1 := by
    rw [Array.size_append]
    rfl
  refine ⟨?_, ?_, ?_⟩
  · simp [Builder.appendBranch, h.bytes, draftBytes, Appended.placeholder]
  · rw [Appended.fixupsFrom_append, Nat.zero_add, ← h.offset_eq]
    show (b.fixups.push
      ⟨(b.bytes ++ (Opcode.branch op 0).encode.toArray).size - 4, l⟩).toList = _
    rw [hposition]
    simp [h.fixups, fixupsFrom]
  · rw [List.findSome?_append, ← h.overflow]
    simp [Builder.appendBranch, Appended.overflow?]

end Records

/-! ## Labels -/

/-- A new label stands nowhere, like a label that was never allocated. -/
theorem position?_allocate (b : Builder) (l : Label) :
    b.allocate.2.position? l = b.position? l := by
  unfold position? allocate
  rw [Array.getElem?_push]
  by_cases hl : l.number = b.labels.size
  · simp [hl]
  · rw [if_neg hl]

theorem Records.allocate (h : b.Records items) : b.allocate.2.Records items :=
  ⟨h.bytes, h.fixups, h.overflow⟩

theorem place_eq_ok {b' : Builder} {l : Label} (h : b.place l = .ok b') :
    l.number < b.labels.size ∧ b.position? l = none ∧
      b' = { b with labels := b.labels.setIfInBounds l.number (some b.offset) } := by
  unfold place at h
  unfold position?
  cases hl : b.labels[l.number]? with
  | none =>
      rw [hl] at h
      cases h
  | some there =>
      rw [hl] at h
      cases there with
      | some offset => cases h
      | none =>
          obtain ⟨hlt, -⟩ := Array.getElem?_eq_some_iff.1 hl
          refine ⟨hlt, rfl, ?_⟩
          cases h
          rfl

/-- **Placing** moves one label, to the current offset. -/
theorem position?_of_place {b' : Builder} {l : Label} (h : b.place l = .ok b') (l' : Label) :
    b'.position? l' = if l' = l then some b.offset else b.position? l' := by
  obtain ⟨hlt, -, rfl⟩ := place_eq_ok h
  unfold position?
  rw [Array.getElem?_setIfInBounds]
  by_cases hl : l' = l
  · simp [hl, hlt]
  · have hne : l.number ≠ l'.number := by
      intro heq
      apply hl
      cases l
      cases l'
      rw [Label.mk.injEq]
      exact heq.symm
    rw [if_neg hl, if_neg hne]

theorem Records.place {b' : Builder} {l : Label} (h : b.Records items) (hl : b.place l = .ok b') :
    b'.Records items := by
  obtain ⟨-, -, rfl⟩ := place_eq_ok hl
  exact ⟨h.bytes, h.fixups, h.overflow⟩

/-! ## Finishing -/

/-- The opcode of an item, with the offset of its label. -/
def resolve (b : Builder) : Appended → Except AssemblyError Opcode
  | .opcode o => .ok o
  | .branch op l =>
    match b.position? l with
    | none => .error (.unresolvedLabel l.text)
    | some target =>
      if target < wordLimit then .ok (.branch op target) else .error (.addressOverflow target)

theorem resolve_branch_eq_ok {op : BranchOp} {l : Label} {o : Opcode} :
    b.resolve (.branch op l) = .ok o ↔
      ∃ target, b.position? l = some target ∧ target < wordLimit ∧ o = .branch op target := by
  cases hl : b.position? l with
  | none => simp [resolve, hl]
  | some target =>
      by_cases ht : target < wordLimit
      · simp [resolve, hl, ht, eq_comm]
      · simp [resolve, hl, ht]

/-- An item has its length before its label has an offset. -/
theorem encodedLength_of_resolve {a : Appended} {o : Opcode} (h : b.resolve a = .ok o) :
    o.encodedLength = a.length := by
  cases a with
  | opcode o' =>
      cases h
      rfl
  | branch op l =>
      obtain ⟨target, -, -, rfl⟩ := resolve_branch_eq_ok.1 h
      rfl

theorem address_lt_of_resolve {a : Appended} {o : Opcode} (hfits : a.overflow? = none)
    (h : b.resolve a = .ok o) {address : Nat} (ha : o.address? = some address) :
    address < wordLimit := by
  cases a with
  | opcode o' =>
      cases h
      simp only [Appended.overflow?, ha] at hfits
      simpa [Option.filter] using hfits
  | branch op l =>
      obtain ⟨target, -, htarget, rfl⟩ := resolve_branch_eq_ok.1 h
      cases ha
      exact htarget

/-- Writing a target over the operand of a placeholder makes it the branch to that target. -/
theorem overwrite_operand (before after : List UInt8) (op : BranchOp) (target : Nat) :
    overwrite (before ++ ((Opcode.branch op 0).encode ++ after)).toArray (before.length + 1)
        (wordBytes target) =
      (before ++ (Opcode.branch op target).encode ++ after).toArray := by
  have hlength : (wordBytes 0).length = (wordBytes target).length := rfl
  have h := overwrite_append (before ++ [(Mnemonic.branch op).tag]) after hlength
  rw [List.length_append] at h
  simpa [Opcode.encode, Opcode.mnemonic, Opcode.operandBytes] using h

/-- A patch of the operand of a placeholder resolves its branch. -/
theorem patch_operand (b : Builder) (before after : List UInt8) (op : BranchOp) (l : Label) :
    b.patch (before ++ ((Opcode.branch op 0).encode ++ after)).toArray ⟨before.length + 1, l⟩ =
      (b.resolve (.branch op l)).map fun o => (before ++ o.encode ++ after).toArray := by
  cases hl : b.position? l with
  | none =>
      simp only [patch, resolve, hl]
      rfl
  | some target =>
      by_cases ht : target < wordLimit
      · simp only [patch, resolve, hl, if_pos ht, overwrite_operand]
        rfl
      · simp only [patch, resolve, hl, if_neg ht]
        rfl

/-- **Patching.** The induction is on the items still to be patched; what stands before them has its
targets already, so each operand is written exactly where its branch stands. -/
theorem foldlM_patch (b : Builder) (before : List UInt8) (items : List Appended) :
    (fixupsFrom before.length items).foldlM b.patch (before ++ draftBytes items).toArray =
      (items.mapM b.resolve).map fun os => (before ++ os.flatMap Opcode.encode).toArray := by
  induction items generalizing before with
  | nil => simp [fixupsFrom, draftBytes, Except.map, pure, Except.pure]
  | cons a items ih =>
      -- Whatever opcode the first item becomes, the rest is patched behind it.
      have hrest : ∀ o : Opcode, o.encodedLength = a.length →
          (fixupsFrom (before.length + a.length) items).foldlM b.patch
              (before ++ o.encode ++ draftBytes items).toArray =
            (items.mapM b.resolve).map fun os =>
              (before ++ (o :: os).flatMap Opcode.encode).toArray := by
        intro o ho
        have hbehind := ih (before ++ o.encode)
        rw [List.length_append, Opcode.length_encode, ho] at hbehind
        simpa using hbehind
      rw [List.mapM_cons]
      cases a with
      | opcode o =>
          have hbytes : before ++ draftBytes (.opcode o :: items) =
              before ++ o.encode ++ draftBytes items := by
            simp [draftBytes, Appended.placeholder]
          rw [hbytes]
          show (fixupsFrom (before.length + o.encodedLength) items).foldlM b.patch _ = _
          rw [show o.encodedLength = (Appended.opcode o).length from rfl, hrest o rfl]
          cases items.mapM b.resolve <;> rfl
      | branch op l =>
          have hbytes : before ++ draftBytes (.branch op l :: items) =
              before ++ ((Opcode.branch op 0).encode ++ draftBytes items) := by
            simp [draftBytes, Appended.placeholder]
          rw [hbytes]
          show List.foldlM b.patch _
            (⟨before.length + 1, l⟩ :: fixupsFrom (before.length + 5) items) = _
          rw [List.foldlM_cons, patch_operand]
          cases hl : b.resolve (.branch op l) with
          | error e => rfl
          | ok o =>
              have hdone := hrest o (encodedLength_of_resolve hl)
              show List.foldlM b.patch _ (fixupsFrom (before.length + 5) items) = _
              rw [show 5 = (Appended.branch op l).length from rfl, hdone]
              cases items.mapM b.resolve <;> rfl

/-- **Finishing** gives every branch the offset of its label and encodes. An address too large is
reported first. -/
theorem finish_of_records (h : b.Records items) :
    b.finish = match items.findSome? Appended.overflow? with
      | some address => .error (.addressOverflow address)
      | none => (items.mapM b.resolve).map fun os => .ofBytes (os.flatMap Opcode.encode) := by
  unfold finish
  rw [h.overflow, h.fixups]
  cases items.findSome? Appended.overflow? with
  | some address => rfl
  | none =>
      have hbytes : b.bytes = ([] ++ draftBytes items).toArray := by
        rw [← h.bytes]
        rfl
      have hpatch : (fixupsFrom 0 items).foldlM b.patch _ = _ := foldlM_patch b [] items
      simp only [hbytes, hpatch]
      cases items.mapM b.resolve <;> rfl

/-- A builder that finishes has resolved all items, to opcodes whose addresses fit in a word. -/
theorem Records.finish_cases {program : Program} (h : b.Records items)
    (hp : b.finish = .ok program) :
    ∃ os, items.mapM b.resolve = .ok os ∧ program = .ofBytes (os.flatMap Opcode.encode) ∧
      ∀ o ∈ os, ∀ a, o.address? = some a → a < wordLimit := by
  rw [finish_of_records h] at hp
  cases hoverflow : items.findSome? Appended.overflow? with
  | some address =>
      rw [hoverflow] at hp
      cases hp
  | none =>
      rw [hoverflow] at hp
      rw [List.findSome?_eq_none_iff] at hoverflow
      obtain ⟨os, hos, rfl⟩ := Attempt.map_eq_ok hp
      refine ⟨os, hos, rfl, ?_⟩
      intro o ho a ha
      obtain ⟨item, hitem, hresolve⟩ := Attempt.exists_of_mem_mapM hos ho
      exact address_lt_of_resolve (hoverflow item hitem) hresolve ha

end Builder
end CogMachine
