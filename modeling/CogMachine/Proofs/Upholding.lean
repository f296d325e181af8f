import CogMachine.Proofs.Arithmetic
import CogMachine.Proofs.Cycle

/-!
# What actions uphold

An invariant of machines is shown of the primitive actions only, and every instruction has it from them.

- `Action.Upholds`: what an action keeps true, and which faults it may raise.
- `Machine.Upheld` lists what has to be shown of an invariant, and `Upheld.perform` passes it on to the
  instructions, up to calls of verbs. `UpheldInFrame` is the part of it for an invariant of one frame, which
  calls and returns need not keep.
-/

namespace CogMachine

namespace Action

variable {S α β : Type} {I : S → Prop} {Q : Fault → Prop} {a : Action S α} {f : α → Action S β}

/-- What is left meets an invariant, even where the action failed, and its fault is one of those. -/
def Meets (I : S → Prop) (Q : Fault → Prop) : Except Fault α × S → Prop
  | (.ok _, s) => I s
  | (.error fault, s) => I s ∧ Q fault

theorem Meets.state {r : Except Fault α × S} (h : Meets I Q r) : I r.2 := by
  rcases r with ⟨fault | x, s⟩
  · exact h.1
  · exact h

/-- **Upholding** an invariant, with no faults but those. -/
def Upholds (I : S → Prop) (Q : Fault → Prop) (a : Action S α) : Prop := ∀ s, I s → Meets I Q (a s)

theorem Upholds.pure (x : α) : Upholds I Q (Pure.pure x : Action S α) := fun _ hs => hs

theorem Upholds.get : Upholds I Q (MonadState.get : Action S S) := fun _ hs => hs

theorem Upholds.bind (ha : Upholds I Q a) (hf : ∀ x, Upholds I Q (f x)) : Upholds I Q (a >>= f) := by
  intro s hs
  have hmeets := ha s hs
  rcases h : a s with ⟨fault | x, t⟩
  · rw [h] at hmeets
    rw [bind_error f h]
    exact hmeets
  · rw [h] at hmeets
    rw [bind_ok f h]
    exact hf x t hmeets

end Action

/-! ## Instructions -/

/-- An instruction that neither enters a frame nor leaves one, and calls no verb. -/
def Opcode.staysInFrame : Opcode → Bool
  | .branch .link _ | .call .. | .ret => false
  | _ => true

theorem Opcode.staysInFrame_or (o : Opcode) :
    o.staysInFrame = true ∨ (∃ target, o = .branch .link target) ∨ (∃ keeps id, o = .call keeps id) ∨
      o = .ret := by
  cases o with
  | push v | dup | memory op address | unary op | binary op => exact .inl rfl
  | branch op target =>
      cases op with
      | jump | ifTrue | ifFalse => exact .inl rfl
      | link => exact .inr (.inl ⟨target, rfl⟩)
  | call keeps id => exact .inr (.inr (.inl ⟨keeps, id, rfl⟩))
  | ret => exact .inr (.inr (.inr rfl))

namespace Machine

open CogMachine.Action (Meets Upholds)

variable {S α : Type} {e : Engine S} {limits : Limits} {I : Machine S → Prop} {Q : Fault → Prop}
variable {T : Nat → Prop}

theorem upholds_lift {r : Except Fault.Cause α} (h : ∀ cause, r = .error cause → Q (.ofCause cause)) :
    Upholds I Q (lift (S := Machine S) r) := by
  intro m hm
  cases r with
  | ok a => exact hm
  | error cause => exact ⟨hm, h cause rfl⟩

/-- **What has to be shown** for an invariant of the instructions that stay in their frame: that the primitive
actions uphold it. Jumps go to targets in `T` only. -/
structure UpheldInFrame (e : Engine S) (I : Machine S → Prop) (Q : Fault → Prop) (T : Nat → Prop) :
    Prop where
  underflow : Q (.ofCause .stackUnderflow)
  division : Q (.ofCause .divisionByZero)
  pop : Upholds I Q Machine.pop
  push : ∀ v, Upholds I Q (Machine.push v)
  load : ∀ address, Upholds I Q (Machine.load e address)
  store : ∀ address v, Upholds I Q (Machine.store e address v)
  jump : ∀ target, T target → Upholds I Q (Machine.jump target)

/-- **What has to be shown** for an invariant of all instructions, up to calls of verbs. -/
structure Upheld (e : Engine S) (limits : Limits) (I : Machine S → Prop) (Q : Fault → Prop)
    (T : Nat → Prop) : Prop extends UpheldInFrame e I Q T where
  link : ∀ target, T target → Upholds I Q (Machine.branch limits target .link)
  retire : Upholds I Q Machine.retire

theorem upholds_pop (hunderflow : Q (.ofCause .stackUnderflow))
    (hI : ∀ m : Machine S, I m → ∀ operands v, m.continuation.operands = operands.push v →
      I { m with continuation := { m.continuation with operands } }) : Upholds I Q Machine.pop := by
  intro m hm
  unfold Machine.pop
  rcases m.continuation.operands.eq_empty_or_push with ho | ⟨below, v, ho⟩
  · rw [ho]
    exact ⟨hm, hunderflow⟩
  · rw [ho]
    exact hI m hm below v ho

theorem load_eq (e : Engine S) (address : Int) (m : Machine S) :
    Machine.load e address m = match m.continuation.top? with
      | none => (.error (.ofCause .stackUnderflow), m)
      | some f => match e.load m.rest f address with
        | .error cause => (.error (.ofCause cause), m)
        | .ok v => Machine.push v m := by
  show (top >>= fun f => lift (e.load m.rest f address) >>= Machine.push) m = _
  rw [Action.bind_eq]
  unfold top
  cases m.continuation.top? with
  | none => rfl
  | some f =>
      show (lift (e.load m.rest f address) >>= Machine.push) m = _
      rw [Action.bind_eq]
      cases hl : e.load m.rest f address with
      | error cause =>
          simp only [hl]
          rfl
      | ok v =>
          simp only [hl]
          rfl

theorem store_eq (e : Engine S) (address : Int) (v : Value) (m : Machine S) :
    Machine.store e address v m = match m.continuation.top? with
      | none => (.error (.ofCause .stackUnderflow), m)
      | some f => inRest (e.store f address v) m := by
  show (top >>= fun f => inRest (e.store f address v)) m = _
  rw [Action.bind_eq]
  unfold top
  cases m.continuation.top? <;> rfl

/-- What an action does to the rest alone is seen by an invariant of the rest only. -/
theorem meets_inRest {a : Action S α} {m : Machine S} (hI : ∀ rest, I ⟨m.continuation, rest⟩)
    (hQ : ∀ fault, (a m.rest).1 = .error fault → Q fault) : Meets I Q (inRest a m) := by
  unfold inRest
  rcases ha : a m.rest with ⟨fault | x, rest⟩
  · rw [ha] at hQ
    simp only [ha]
    exact ⟨hI rest, hQ fault rfl⟩
  · simp only [ha]
    exact hI rest

/-- **An invariant that ignores the operands** is left to jumps and to the memory. -/
theorem upheldInFrame_of_operands (hunderflow : Q (.ofCause .stackUnderflow))
    (hdivision : Q (.ofCause .divisionByZero))
    (hI : ∀ m : Machine S, I m → ∀ operands, I { m with continuation := { m.continuation with operands } })
    (hload : ∀ m f address cause, I m → m.continuation.top? = some f →
      e.load m.rest f address = .error cause → Q (.ofCause cause))
    (hstore : ∀ m f address v, I m → m.continuation.top? = some f →
      Meets I Q (inRest (e.store f address v) m))
    (hjump : ∀ target, T target → Upholds I Q (Machine.jump target)) : UpheldInFrame e I Q T where
  underflow := hunderflow
  division := hdivision
  pop := upholds_pop hunderflow fun m hm operands _ _ => hI m hm operands
  push v m hm := hI m hm _
  load address := by
    intro m hm
    rw [load_eq]
    cases htop : m.continuation.top? with
    | none => exact ⟨hm, hunderflow⟩
    | some f =>
        cases hl : e.load m.rest f address with
        | error cause =>
            simp only [hl]
            exact ⟨hm, hload m f address cause hm htop hl⟩
        | ok v =>
            simp only [hl]
            exact hI m hm _
  store address v := by
    intro m hm
    rw [store_eq]
    cases htop : m.continuation.top? with
    | none => exact ⟨hm, hunderflow⟩
    | some f => exact hstore m f address v hm htop
  jump := hjump

/-- **A nested call** enters a frame if there is room, and otherwise changes nothing. -/
theorem upholds_link_of {target : Nat} (hunderflow : Q (.ofCause .stackUnderflow))
    (hfull : Q (.ofCause (.callStackOverflow limits.callDepth)))
    (hI : ∀ (m : Machine S) f, I m → m.continuation.top? = some f →
      m.continuation.depth < limits.callDepth →
      I { m with continuation := m.continuation.pushFrame (f.nested target) }) :
    Upholds I Q (Machine.branch limits target .link) := by
  intro m hm
  cases htop : m.continuation.top? with
  | none =>
      simp only [Machine.branch]
      rw [Action.bind_eq]
      show Meets I Q ((if _ then _ else _ : Action (Machine S) Unit) m)
      split
      · exact ⟨hm, hfull⟩
      · rw [Action.bind_eq]
        simp only [top, htop]
        exact ⟨hm, hunderflow⟩
  | some f =>
      rw [branch_link limits target htop]
      split
      · exact ⟨hm, hfull⟩
      · exact hI m f hm htop (by omega)

namespace UpheldInFrame

theorem access (h : UpheldInFrame e I Q T) (op : MemoryOp) (address : Nat) :
    Upholds I Q (Machine.access e address op) := by
  cases op with
  | load => exact h.load _
  | loadIndexed => exact h.pop.bind fun index => h.load _
  | store => exact h.pop.bind fun v => h.store _ v
  | storeIndexed => exact h.pop.bind fun index => h.pop.bind fun v => h.store _ v

theorem branch (h : UpheldInFrame e I Q T) {op : BranchOp} (hop : op ≠ .link) {target : Nat}
    (ht : T target) : Upholds I Q (Machine.branch limits target op) := by
  cases op with
  | jump => exact h.jump target ht
  | link => exact absurd rfl hop
  | ifTrue =>
      refine h.pop.bind fun v => ?_
      show Upholds _ _ (if v.isTruthy then _ else _)
      split
      · exact h.jump target ht
      · exact .pure ()
  | ifFalse =>
      refine h.pop.bind fun v => ?_
      show Upholds _ _ (if !v.isTruthy then _ else _)
      split
      · exact h.jump target ht
      · exact .pure ()

/-- **Instructions** that stay in their frame uphold the invariant. -/
theorem perform (h : UpheldInFrame e I Q T) {o : Opcode} (ho : o.staysInFrame = true)
    (htarget : ∀ target, o.target? = some target → T target) :
    Upholds I Q (Machine.perform e limits o) := by
  cases o with
  | push v => exact (h.push v).bind fun _ => .pure _
  | dup =>
      refine Upholds.get.bind fun m => ?_
      refine (upholds_lift ?_).bind fun v => (h.push v).bind fun _ => .pure _
      intro cause hcause
      unfold Stack.peek at hcause
      split at hcause
      · cases hcause
        exact h.underflow
      · cases hcause
  | memory op address => exact (h.access op address).bind fun _ => .pure _
  | branch op target =>
      have hop : op ≠ .link := by
        rintro rfl
        cases ho
      exact (h.branch hop (htarget target rfl)).bind fun _ => .pure _
  | call keeps id => cases ho
  | ret => cases ho
  | unary op => exact h.pop.bind fun v => (h.push _).bind fun _ => .pure _
  | binary op =>
      refine h.pop.bind fun b => h.pop.bind fun a => ?_
      refine (upholds_lift ?_).bind fun v => (h.push v).bind fun _ => .pure _
      intro cause hcause
      rw [(BinaryOp.apply_eq_error_iff.mp hcause).1]
      exact h.division

end UpheldInFrame

/-- **Instructions** other than calls of verbs uphold the invariant. -/
theorem Upheld.perform (h : Upheld e limits I Q T) {o : Opcode} (hcall : ∀ keeps id, o ≠ .call keeps id)
    (htarget : ∀ target, o.target? = some target → T target) :
    Upholds I Q (Machine.perform e limits o) := by
  rcases o.staysInFrame_or with hstays | ⟨target, rfl⟩ | ⟨keeps, id, rfl⟩ | rfl
  · exact h.toUpheldInFrame.perform hstays htarget
  · exact (h.link target (htarget target rfl)).bind fun _ => .pure _
  · exact absurd rfl (hcall keeps id)
  · exact h.retire

/-- A call of a verb that upholds the invariant, and then the push of its value, if that is kept. -/
theorem UpheldInFrame.call (h : UpheldInFrame e I Q T) {keeps : Bool} {id : VerbId}
    (hinvoke : Upholds I Q (e.invoke id keeps)) : Upholds I Q (Machine.perform e limits (.call keeps id)) := by
  refine hinvoke.bind fun flow => ?_
  cases flow with
  | value v =>
      cases keeps with
      | true => exact (h.push v).bind fun _ => .pure _
      | false => exact .pure _
  | suspend => exact .pure _
  | restart => exact .pure _

end Machine
end CogMachine
