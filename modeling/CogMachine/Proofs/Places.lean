import CogMachine.Proofs.Upholding

/-!
# Where frames stand

The place of a frame is its script and the offset of its next instruction. Instructions move frames only
to the offset after an instruction or to the target of a branch, and verbs are taken here not to move
them at all. So a set of offsets that is closed under these two moves is never left.

- `Machine.upheld_placed`: no instruction but a call of a verb leaves a closed set of offsets, or complains
  of the code.
- `Machine.Placed.cycle`: one cycle keeps all frames of a script in a closed set of offsets.
- `Machine.Placed.faulted`: it complains of the code only where the decoder does, or where a verb does by
  itself.
-/

namespace CogMachine

/-- Whether a fault is one of the code: a complaint of the decoder or of an entry check. -/
def Fault.Cause.inCode : Fault.Cause → Bool
  | unknownOpcode .. | unknownLiteral .. | truncatedInstruction .. | invalidString ..
  | addressOutOfRange .. => true
  | _ => false

def Frame.place (f : Frame) : Script × Nat := (f.script, f.counter)

/-- **Places** of the frames, the innermost first. -/
def Continuation.places (c : Continuation) : List (Script × Nat) := c.frames.items.map Frame.place

namespace Continuation

variable {c : Continuation} {callers : Stack Frame} {f : Frame}

theorem places_push (h : c.frames = callers.push f) :
    c.places = f.place :: callers.items.map Frame.place := by
  rw [places, h]
  rfl

/-- A return leaves the places of the callers. -/
theorem places_retire (c : Continuation) : c.retire.2.places = c.places.tail := by
  rcases c.frames.eq_empty_or_push with hf | ⟨callers, f, hf⟩
  · have hretire : c.retire = (some .void, c) := by
      rw [retire, hf]
      rfl
    rw [hretire, places, hf]
    rfl
  · rcases callers.eq_empty_or_push with rfl | ⟨rest, caller, rfl⟩
    · rw [retire_last hf, places_push hf]
      rfl
    · rw [retire_push_push hf, places_push hf]
      show (receive f _ caller).place :: _ = caller.place :: _
      congr 1
      unfold receive
      split <;> rfl

end Continuation

namespace Machine

open CogMachine.Action (Meets Upholds)

variable {S : Type} {e : Engine S} {limits : Limits} {script : Script} {P : Nat → Prop}
variable {m m' m₀ : Machine S}

/-- **Placed.** All frames run the script, at offsets of a set. -/
def Placed (script : Script) (P : Nat → Prop) (m : Machine S) : Prop :=
  ∀ p ∈ m.continuation.places, p.1 = script ∧ P p.2

/-- A fault that says nothing of the code. -/
def Foreign (f : Fault) : Prop := f.cause.inCode = false

/-- **An orderly engine:** its verbs leave all frames in their places, and its memory does not complain
of the code. -/
structure Orderly (e : Engine S) : Prop where
  load : ∀ s f address cause, e.load s f address = .error cause → cause.inCode = false
  store : ∀ f address v s fault, (e.store f address v s).1 = .error fault → Foreign fault
  invoke : ∀ id keeps m, (e.invoke id keeps m).2.continuation.places = m.continuation.places

theorem Placed.of_places (h : m.Placed script P)
    (hsame : m'.continuation.places = m.continuation.places) : m'.Placed script P := by
  unfold Placed
  rw [hsame]
  exact h

theorem placed_push {callers : Stack Frame} {f : Frame} (h : m.continuation.frames = callers.push f) :
    m.Placed script P ↔
      (f.script = script ∧ P f.counter) ∧ ∀ g ∈ callers.items, g.script = script ∧ P g.counter := by
  unfold Placed
  rw [Continuation.places_push h, List.forall_mem_cons, List.forall_mem_map]
  rfl

/-- The innermost frame may move to another offset of the set. -/
theorem Placed.advance (h : m.Placed script P) {next : Nat} (hnext : P next) :
    (m.advance next).Placed script P := by
  rcases m.continuation.frames.eq_empty_or_push with hf | ⟨callers, f, hf⟩
  · have hsame : (m.advance next).continuation.places = m.continuation.places := by
      simp only [Machine.advance, Continuation.modifyTop, Continuation.places, hf]
      rfl
    exact h.of_places hsame
  · obtain ⟨⟨hscript, -⟩, hcallers⟩ := (placed_push hf).1 h
    exact (placed_push (advance_frames next hf)).2 ⟨⟨hscript, hnext⟩, hcallers⟩

/-! ## Instructions -/

section Instructions

theorem upheldInFrame_placed (he : Orderly e) : UpheldInFrame e (Placed script P) Foreign P := by
  refine upheldInFrame_of_operands rfl rfl (fun m hm operands => hm) ?_ ?_ ?_
  · intro m f address cause _ _ h
    exact he.load m.rest f address cause h
  · intro m f address v hm _
    exact meets_inRest (fun rest => hm) (he.store f address v m.rest)
  · intro target h m hm
    exact hm.advance h

/-- A nested call enters a frame of the same script at its target. -/
theorem upholds_link {target : Nat} (h : P target) :
    Upholds (Placed script P) Foreign (branch (S := S) limits target .link) := by
  refine upholds_link_of (Q := Foreign) rfl rfl ?_
  intro m f hm htop _
  obtain ⟨callers, hf⟩ := frames_of_top? htop
  obtain ⟨⟨hscript, hcounter⟩, hcallers⟩ := (placed_push hf).1 hm
  have hframes : (m.continuation.pushFrame (f.nested target)).frames =
      m.continuation.frames.push { f.nested target with height := m.continuation.operands.height } :=
    rfl
  rw [placed_push hframes, hf]
  exact ⟨⟨hscript, h⟩, List.forall_mem_cons.2 ⟨⟨hscript, hcounter⟩, hcallers⟩⟩

theorem upholds_retire : Upholds (Placed script P) Foreign (retire (S := S)) := by
  intro m hm p hp
  have hplaces : m.continuation.retire.2.places = m.continuation.places.tail :=
    m.continuation.places_retire
  apply hm p
  apply List.mem_of_mem_tail
  rw [← hplaces]
  exact hp

/-- **Instructions** move no frame but to their target. -/
theorem upheld_placed (he : Orderly e) : Upheld e limits (Placed script P) Foreign P where
  toUpheldInFrame := upheldInFrame_placed he
  link _ h := upholds_link h
  retire := upholds_retire

end Instructions

/-- A call of a verb leaves all frames in their places. -/
theorem places_perform_call (he : Orderly e) (keeps : Bool) (id : VerbId) (m : Machine S) :
    (perform e limits (.call keeps id) m).2.continuation.places = m.continuation.places := by
  rw [perform_call, ← he.invoke id keeps m]
  rcases e.invoke id keeps m with ⟨fault | v | _ | _, t⟩
  · rfl
  · cases keeps <;> rfl
  · rfl
  · rfl

/-! ## Cycles -/

/-- **A closed set of offsets:** an instruction at one of them leads to the others. -/
def Closed (script : Script) (P : Nat → Prop) : Prop :=
  ∀ n i, P n → script.program.decode n = .ok i →
    P i.next ∧ ∀ target, i.opcode.target? = some target → P target

/-- A cycle that faults has the cause of its instruction, or too many operands. -/
theorem cause_of_settle {slot position : Nat} {r : Except Fault (Option Halt) × Machine S} {f : Fault}
    (h : (settle limits slot position r).1 = .faulted f) :
    (∃ fault, r.1 = .error fault ∧ fault.cause = f.cause) ∨
      f.cause = .stackOverflow limits.stackDepth := by
  rcases r with ⟨fault | _ | halt, m⟩
  · cases h
    exact .inl ⟨fault, rfl, (traced_cause ..).symm⟩
  · simp only [settle] at h
    split at h
    · cases h
      exact .inr (traced_cause ..)
    · cases h
  · cases h

/-- **The step.** A cycle keeps all frames in a closed set. -/
theorem Placed.cycle (he : Orderly e) (hclosed : Closed script P) (hm : m.Placed script P) :
    (Machine.cycle e limits m).2.Placed script P := by
  rcases cycle_cases e limits m with
    ⟨-, hc⟩ | ⟨_, _, _, -, -, hc⟩ | ⟨callers, f, i, hf, hd, hc⟩
  · rw [hc]
    exact hm
  · rw [hc]
    exact hm
  · obtain ⟨⟨hscript, hcounter⟩, -⟩ := (placed_push hf).1 hm
    obtain ⟨hnext, htarget⟩ := hclosed _ _ hcounter (hscript ▸ hd)
    have hadvanced := hm.advance hnext
    rw [hc, settle_snd]
    by_cases hcall : ∃ keeps id, i.opcode = .call keeps id
    · obtain ⟨keeps, id, ho⟩ := hcall
      rw [ho]
      exact hadvanced.of_places (places_perform_call he keeps id _)
    · exact ((upheld_placed he).perform (by simpa using hcall) htarget _ hadvanced).state

/-- **Faults in the code** come from the decoder, or from a verb that is called. -/
theorem Placed.faulted (he : Orderly e) (hclosed : Closed script P) (hm : m.Placed script P) {f : Fault}
    (h : Machine.cycle e limits m = (.faulted f, m')) (hcode : f.cause.inCode = true) :
    (∃ n, P n ∧ script.program.decode n = .error f.cause) ∨
      ∃ keeps fault, CallAnswers e keeps (.error fault) m m' ∧ fault.cause = f.cause := by
  rcases cycle_cases e limits m with
    ⟨-, hc⟩ | ⟨callers, g, cause, hf, hd, hc⟩ | ⟨callers, g, i, hf, hd, hc⟩
  · rw [hc] at h
    cases h
  · obtain ⟨⟨hscript, hcounter⟩, -⟩ := (placed_push hf).1 hm
    rw [hc] at h
    cases h
    rw [traced_cause]
    exact .inl ⟨g.counter, hcounter, hscript ▸ hd⟩
  · obtain ⟨⟨hscript, hcounter⟩, -⟩ := (placed_push hf).1 hm
    obtain ⟨hnext, htarget⟩ := hclosed _ _ hcounter (hscript ▸ hd)
    rw [hc] at h
    rcases cause_of_settle (congrArg Prod.fst h) with ⟨fault, hfault, hcause⟩ | hcause
    · by_cases hcall : ∃ keeps id, i.opcode = .call keeps id
      · obtain ⟨keeps, id, ho⟩ := hcall
        refine .inr ⟨keeps, fault, ⟨i, id, instruction?_of_decode hf hd, ho, ?_⟩, hcause⟩
        have hleft : (settle limits callers.height g.counter
            (perform e limits i.opcode (m.advance i.next))).2 = m' := congrArg Prod.snd h
        rw [settle_snd] at hleft
        rw [ho, perform_call] at hfault hleft
        rcases hinv : e.invoke id keeps (m.advance i.next) with ⟨fault' | v | _ | _, t⟩
        · rw [hinv] at hfault hleft
          cases hfault
          cases hleft
          rfl
        · rw [hinv] at hfault
          cases hfault
        · rw [hinv] at hfault
          cases hfault
        · rw [hinv] at hfault
          cases hfault
      · have hmeets : Meets (Placed script P) Foreign (perform e limits i.opcode (m.advance i.next)) :=
          (upheld_placed he).perform (by simpa using hcall) htarget _ (hm.advance hnext)
        rcases hr : perform e limits i.opcode (m.advance i.next) with ⟨fault' | _, t⟩
        · rw [hr] at hmeets hfault
          cases hfault
          have hforeign : fault.cause.inCode = false := hmeets.2
          rw [hcause, hcode] at hforeign
          cases hforeign
        · rw [hr] at hfault
          cases hfault
    · rw [hcause] at hcode
      cases hcode

end Machine
end CogMachine
