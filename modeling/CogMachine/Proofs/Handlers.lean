import CogMachine.Machine.Transient
import CogMachine.Proofs.Composition

/-!
# Values of verbs that enter handlers

A verb that a `callv` calls may enter frames before it answers with a value. The value is pushed after that,
so it lies above the heights that these frames noted, and from then on it is an operand of theirs.

- `Machine.keep` is what a kept value changes; `cycle_callv` says that every `callv` with a value does so.
- `Entered`: the frames that a verb entered, above the caller and what lies below. Entering a frame and
  pushing an operand keep it up.
- `Continuation.resultOf_push`: the frame that returns with nothing above the value has it for its result.
- `Transient.frames_of_callAnswers`: verbs of the transient engine enter no frame.
- `callv_value_falls_to_handlers`: the run of the frames starts with the value as its topmost operand, and
  what they leave the caller are the operands from before them, and their result if it is pushed.
-/

namespace CogMachine

/-- **Taking an operand.** A frame without anything in its return register returns the topmost operand, if
that lies above its height, whoever pushed it. -/
theorem Continuation.resultOf_push {operands : Stack Value} {f : Frame} (hnone : f.returned = none)
    (h : f.height ≤ operands.height) (v : Value) : resultOf (operands.push v) f = v := by
  have habove : f.height < (operands.push v).height := Nat.lt_succ_of_le h
  simp only [resultOf, hnone, if_pos habove]
  rfl

namespace Machine

variable {S : Type} {e : Engine S} {limits : Limits} {m m₁ : Machine S} {v : Value}

/-- The machine with a further operand. -/
def keep (m : Machine S) (v : Value) : Machine S :=
  { m with continuation := { m.continuation with operands := m.continuation.operands.push v } }

/-- **Going on,** unless there are too many operands. -/
def GoesOn (e : Engine S) (limits : Limits) (m m' : Machine S) : Prop :=
  cycle e limits m = (.next, m') ∨
    ∃ fault, cycle e limits m = (.faulted fault, m') ∧ fault.cause = .stackOverflow limits.stackDepth

theorem goesOn_of_settle {slot position : Nat} {m' : Machine S}
    (h : cycle e limits m = settle limits slot position (.ok none, m')) : GoesOn e limits m m' := by
  by_cases hfull : limits.stackDepth < m'.continuation.operands.height
  · rw [settle, if_pos hfull] at h
    exact .inr ⟨_, h, traced_cause ..⟩
  · rw [settle, if_neg hfull] at h
    exact .inl h

/-- **A call that keeps its value** pushes it onto whatever the verb has left. -/
theorem cycle_callv (limits : Limits) (h : CallAnswers e true (.ok (.value v)) m m₁) :
    GoesOn e limits m (m₁.keep v) := by
  obtain ⟨callers, f, i, id, hf, hd, ho, hinvoke⟩ := h.decoded
  have hperform : perform e limits i.opcode (m.advance i.next) = (.ok none, m₁.keep v) := by
    rw [ho, perform_call, hinvoke]
    rfl
  have hcycle : cycle e limits m = _ := cycle_of_decoded hf hd
  rw [hperform] at hcycle
  exact goesOn_of_settle hcycle

/-- **Returning to a caller** with the result, from the operands that the frame found. -/
theorem cycle_ret (e : Engine S) (limits : Limits) {rest : Stack Frame} {caller f : Frame}
    (hf : m.continuation.frames = (rest.push caller).push f) (hret : m.opcode? = some .ret) :
    GoesOn e limits m
      ⟨⟨rest.push (Continuation.receive f (Continuation.resultOf m.continuation.operands f) caller),
        Continuation.deliver f (Continuation.resultOf m.continuation.operands f)
          (m.continuation.operands.truncate f.height)⟩, m.rest⟩ := by
  obtain ⟨i, hi, ho⟩ := Option.map_eq_some_iff.mp hret
  obtain ⟨callers, g, hg, hd⟩ := decoded_of_instruction? hi
  obtain ⟨rfl, rfl⟩ : g = f ∧ callers = rest.push caller := by
    have hpop := congrArg Stack.pop? (hg.symm.trans hf)
    simpa only [Stack.pop?_push, Option.some.injEq, Prod.mk.injEq] using hpop
  have hcycle : cycle e limits m = _ := cycle_of_decoded hf hd
  rw [ho, perform, retire, Continuation.retire_push_push (advance_frames i.next hf)] at hcycle
  exact goesOn_of_settle hcycle

end Machine

/-- A verb of the transient engine enters no frame: the caller stays on top, past the call. -/
theorem Transient.frames_of_callAnswers {ω : Type} {verbs : VerbTable (Handler ω)} {keeps : Bool}
    {r : Except Fault Flow} {m m₁ : Machine (State ω)} (h : Machine.CallAnswers (engine verbs) keeps r m m₁) :
    ∃ (callers : Stack Frame) (f : Frame) (next : Nat), m.continuation.frames = callers.push f ∧
      m₁.continuation.frames = callers.push { f with counter := next } := by
  obtain ⟨callers, f, i, id, hf, -, -, hinvoke⟩ := h.decoded
  have hframes : ∀ m : Machine (State ω), (invoke verbs id m).2.continuation.frames = m.continuation.frames := by
    intro m
    unfold invoke
    cases verbs.get id <;> rfl
  have hleft := hframes (m.advance i.next)
  rw [show invoke verbs id (m.advance i.next) = (r, m₁) from hinvoke, Machine.advance_frames i.next hf] at hleft
  exact ⟨callers, f, i.next, hf, hleft⟩

namespace Resumable

variable {σ : Type} {verbs : VerbTable (Handler σ)} {limits : Limits}

/-! ## Frames that a verb entered -/

/-- **Entered frames:** they are those of `alone`, raised above the callers and the operands below, which
the first of them noted. -/
structure Entered (callers : Stack Frame) (below : Stack Value) (alone c : Continuation) : Prop where
  grounded : Grounded alone.frames
  atop : c = alone.atop callers below

namespace Entered

variable {callers : Stack Frame} {below : Stack Value} {alone c : Continuation}

/-- A verb that enters a frame. -/
theorem ofFrame (callers : Stack Frame) (below : Stack Value) (f : Frame) :
    Entered callers below (.ofFrame f) ((Continuation.mk callers below).pushFrame f) where
  grounded := rfl
  atop := by
    simp [Continuation.atop, Continuation.ofFrame, Continuation.empty, Continuation.pushFrame,
      Frame.raise]

/-- It may enter another one above it, -/
theorem pushFrame (h : Entered callers below alone c) (f : Frame) :
    Entered callers below (alone.pushFrame f) (c.pushFrame f) where
  grounded := h.grounded.push _
  atop := by
    rw [Continuation.atop_pushFrame, h.atop]
    rfl

/-- and push operands for it. -/
theorem push (h : Entered callers below alone c) (v : Value) :
    Entered callers below { alone with operands := alone.operands.push v }
      { c with operands := c.operands.push v } where
  grounded := h.grounded
  atop := by
    rw [h.atop]
    simp only [Continuation.atop, Stack.push_atop]

end Entered

/-! ## What becomes of the value -/

/-- **The value of a `callv` falls to the handlers.** It is pushed onto what the verb left, so if the verb
entered no frame, the caller goes on with that. A frame that was entered no higher than the value drops it
with its return, whatever was done in between, and if there are the operands of then and no written return
register, it returns the value as its own result.

So if the frames that the verb entered, alone and with the value as their topmost operand, complete with
`r` by a run that calls none but quiet verbs, then they return to the caller, unless they run into a limit.
The caller goes on with the operands from before the first of them, with `r` on top if its flags say
so, and no value of the call among them.

With the transient engine, whose verbs enter no frames, the caller always goes on with its value. -/
theorem callv_value_falls_to_handlers {m m₁ : Machine (World σ)} {v : Value}
    (hcall : Machine.CallAnswers (engine verbs) true (.ok (.value v)) m m₁) :
    Machine.GoesOn (engine verbs) limits m (m₁.keep v) ∧
    (∀ {x : Machine (World σ)} {rest : Stack Frame} {caller f : Frame},
      x.continuation.frames = (rest.push caller).push f → x.opcode? = some .ret →
      f.height ≤ m₁.continuation.operands.height →
      ∃ r kept, Machine.GoesOn (engine verbs) limits x ⟨⟨rest.push (Continuation.receive f r caller),
          Continuation.deliver f r kept⟩, x.rest⟩ ∧
        kept.toList = x.continuation.operands.toList.take f.height ∧
        kept.height ≤ m₁.continuation.operands.height ∧
        (f.returned = none → x.continuation.operands = m₁.continuation.operands.push v → r = v)) ∧
    (∀ {m' : Machine (World σ)} {rest : Stack Frame} {caller : Frame} {below : Stack Value}
      {alone : Continuation} {limits₀ : Limits} {fuel : Nat} {services : σ} {r : Value},
      Entered (rest.push caller) below alone m₁.continuation →
      execute verbs limits₀ fuel (Machine.keep ⟨alone, ⟨m₁.rest.memories, services⟩⟩ v) =
        some (.ok (.completed r), m') →
      (∀ s ∈ visited verbs limits₀ fuel limits₀.restarts
        (Machine.keep ⟨alone, ⟨m₁.rest.memories, services⟩⟩ v), QuietAt verbs s) →
      ∀ b, (∃ seen x, Leads verbs limits seen b m b x ∧ Overflows verbs limits x) ∨
        ∃ seen x f, Leads verbs limits (m :: seen) b m b x ∧
          (∀ s ∈ seen, InCall (rest.push caller) s) ∧
          x.continuation.frames = (rest.push caller).push f ∧ x.opcode? = some .ret ∧
          Machine.cycle (engine verbs) limits x = (.next,
            ⟨⟨rest.push (Continuation.receive f r caller), Continuation.deliver f r below⟩,
              ⟨m'.rest.memories, m₁.rest.services⟩⟩)) ∧
    ∀ {ω : Type} {verbs : VerbTable (Transient.Handler ω)} {m m₁ : Machine (Transient.State ω)} {v : Value},
      Machine.CallAnswers (Transient.engine verbs) true (.ok (.value v)) m m₁ →
      Machine.GoesOn (Transient.engine verbs) limits m (m₁.keep v) ∧
      ∃ (callers : Stack Frame) (f : Frame) (next : Nat), m.continuation.frames = callers.push f ∧
        m₁.continuation.frames = callers.push { f with counter := next } := by
  refine ⟨Machine.cycle_callv limits hcall, ?_, ?_, ?_⟩
  · intro x rest caller f hf hret hheight
    refine ⟨_, _, Machine.cycle_ret _ limits hf hret, Stack.toList_truncate _ _, ?_, ?_⟩
    · exact Nat.le_trans (Nat.min_le_right _ _) hheight
    · intro hnone hoperands
      rw [hoperands]
      exact Continuation.resultOf_push hnone hheight v
  · intro m' rest caller below alone limits₀ fuel services r hentered hrun hquiet b
    have hgrounded := hentered.grounded
    have hkept : m₁.keep v = Below.lift ⟨rest.push caller, below, m₁.rest.services⟩
        (Machine.keep ⟨alone, ⟨m₁.rest.memories, services⟩⟩ v) := by
      show Machine.mk _ _ = Machine.mk _ _
      rw [(hentered.push v).atop]
      rfl
    rw [execute, if_neg (by
      rw [Continuation.isFinished, Stack.isEmpty_iff]
      exact hgrounded.ne_empty)] at hrun
    rcases Machine.cycle_callv limits hcall with hnext | ⟨fault, hfull, hcause⟩
    · -- The handlers run above the caller, with the value as an operand of theirs.
      rw [hkept] at hnext
      rcases lift_returns limits ⟨rest.push caller, below, m₁.rest.services⟩ hgrounded hrun hquiet rfl b with
        ⟨seen, x, hx, hover⟩ | ⟨seen, x, f, hx, hcalls, hf, hret, hreturn⟩
      · exact .inl ⟨_, x, .next hnext hx, hover⟩
      · exact .inr ⟨seen, x, f, .next hnext hx, hcalls, hf, hret, hreturn⟩
    · exact .inl ⟨[], m, .refl _ _, fault, _, hfull, .inr hcause⟩
  · intro ω verbs m m₁ v hcall
    exact ⟨Machine.cycle_callv limits hcall, Transient.frames_of_callAnswers hcall⟩

/-! ## A handler that takes the value -/

/-- `callv` of the only verb, and a return, which is the handler too. -/
def answered : Script := .ofProgram "answered" (.ofBytes ([.call true ⟨0⟩, .ret].flatMap Opcode.encode))

/-- The frame of the handler; its result is saved by the caller, but not pushed. -/
def savedHandler : Frame := { Frame.enter answered 5 with savesResult := true }

/-- A table whose verb enters the handler and answers 77. -/
def answering : VerbTable (Handler Unit) :=
  VerbTable.empty.add "enter" fun _ m =>
    (.ok (.value (.int 77)), { m with continuation := m.continuation.pushFrame savedHandler })

def answeringStart : Machine (World Unit) := ⟨.ofFrame (.enter answered 0), ⟨.empty, ()⟩⟩

/-- What the verb leaves: the calling frame past the call, and the handler. -/
def answeringLeft : Machine (World Unit) :=
  ⟨(Continuation.ofFrame (.enter answered 5)).pushFrame savedHandler, ⟨.empty, ()⟩⟩

/-- With the transient engine: a verb that answers 77. -/
def answeringKept : VerbTable (Transient.Handler Unit) :=
  VerbTable.empty.add "enter" fun lent => (.ok (.int 77), lent)

def answeredKept : Machine (Transient.State Unit) := ⟨.ofFrame (.enter answered 5), ⟨.empty, ()⟩⟩

theorem callAnswers_answeredKept : Machine.CallAnswers (Transient.engine answeringKept) true
    (.ok (.value (.int 77))) ⟨.ofFrame (.enter answered 0), ⟨.empty, ()⟩⟩ answeredKept :=
  ⟨⟨.call true ⟨0⟩, 0, 5⟩, ⟨0⟩, rfl, rfl, rfl⟩

theorem callAnswers_answering :
    Machine.CallAnswers (engine answering) true (.ok (.value (.int 77))) answeringStart answeringLeft :=
  ⟨⟨.call true ⟨0⟩, 0, 5⟩, ⟨0⟩, rfl, rfl, rfl⟩

/-- The handler takes the value for its result, and the caller gets nothing pushed. With the transient engine
the caller goes on with 77. -/
theorem callv_value_falls_to_handlers_answering :
    (∃ r kept, Machine.GoesOn (engine answering) .standard (answeringLeft.keep (.int 77))
        ⟨⟨Stack.empty.push ((Frame.enter answered 5).setResult r), kept⟩, ⟨.empty, ()⟩⟩ ∧
      kept.toList = [] ∧ kept.height ≤ 0 ∧ r = .int 77) ∧
    ((∃ seen x, Leads answering .standard seen 0 answeringStart 0 x ∧ Overflows answering .standard x) ∨
      ∃ seen x f, Leads answering .standard (answeringStart :: seen) 0 answeringStart 0 x ∧
        (∀ s ∈ seen, InCall (Stack.empty.push (.enter answered 5)) s) ∧
        x.continuation.frames = (Stack.empty.push (.enter answered 5)).push f ∧
        x.opcode? = some .ret ∧
        Machine.cycle (engine answering) .standard x = (.next,
          ⟨⟨Stack.empty.push (Continuation.receive f (.int 77) (.enter answered 5)),
            Continuation.deliver f (.int 77) .empty⟩, ⟨.empty, ()⟩⟩)) ∧
    Machine.GoesOn (Transient.engine answeringKept) .standard ⟨.ofFrame (.enter answered 0), ⟨.empty, ()⟩⟩
      (answeredKept.keep (.int 77)) := by
  obtain ⟨-, hret, hruns, htransient⟩ := @callv_value_falls_to_handlers Unit answering .standard _ _ _
    callAnswers_answering
  refine ⟨?_, ?_, ?_⟩
  · obtain ⟨r, kept, hgoes, hkept, hheight, hr⟩ :=
      @hret (answeringLeft.keep (.int 77)) .empty (.enter answered 5) savedHandler rfl rfl (Nat.le_refl 0)
    exact ⟨r, kept, hgoes, hkept, hheight, hr rfl rfl⟩
  · have hrun : execute answering .standard 1
        (Machine.keep ⟨.ofFrame savedHandler, ⟨.empty, ()⟩⟩ (.int 77)) =
          some (.ok (.completed (.int 77)), ⟨⟨.empty, Stack.empty.push (.int 77)⟩, ⟨.empty, ()⟩⟩) := rfl
    refine hruns (.ofFrame _ .empty _) hrun ?_ 0
    intro s hs o ho keeps id verb hcall
    obtain rfl := List.mem_singleton.mp hs
    cases ho
    cases hcall
  · exact (htransient callAnswers_answeredKept).1

/-- **A value that the caller never gets.** The verb answers 77 to the `callv`, the handler that it entered
returns at once, and when the caller carries out its next instruction, there is no operand left. -/
theorem callv_value_lost :
    Machine.CallAnswers (engine answering) true (.ok (.value (.int 77))) answeringStart answeringLeft ∧
    ∃ x f, Leads answering .standard [answeringStart, answeringLeft.keep (.int 77)] 0 answeringStart 0 x ∧
      x.continuation.frames = Stack.empty.push f ∧ x.opcode? = some .ret ∧
      x.continuation.operands = .empty ∧ f.returned = some (.int 77) :=
  ⟨callAnswers_answering, _, _, .next rfl (.next rfl (.refl _ _)), rfl, rfl, rfl, rfl⟩

end Resumable
end CogMachine
