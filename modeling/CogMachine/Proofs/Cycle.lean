import CogMachine.Machine.Cycle

/-!
# One cycle, taken apart

What later modules need to know about a cycle, so that none of them opens it again.

- Actions: a sequence runs its second part exactly if the first succeeds (`Action.bind_eq`).
- `Machine.instruction?` is the instruction that the next cycle carries out, `Machine.advance` the
  machine whose innermost frame has moved past it, and `Machine.settle` what becomes of the result.
- `Machine.cycle_cases`: a cycle finds no frame, or cannot decode, or settles an instruction.
- `Machine.CallAnswers` is a call of a verb, told by the answer and by what the verb left.
- `Machine.visited` lists the states in which the cycles of a run begin, and `Machine.Steps` is the
  same as a relation, which is what proofs go by.
-/

namespace CogMachine

/-! ## Actions -/

namespace Action

variable {S α β : Type}

/-- **Sequencing.** The second action runs from where the first one ended, if that succeeded. -/
theorem bind_eq (a : Action S α) (f : α → Action S β) (s : S) :
    (a >>= f) s = match a s with
      | (.ok x, t) => f x t
      | (.error fault, t) => (.error fault, t) := by
  rcases h : a s with ⟨fault | x, t⟩
  · show ExceptT.bindCont f (a s).1 (a s).2 = _
    rw [h]
    rfl
  · show ExceptT.bindCont f (a s).1 (a s).2 = _
    rw [h]
    rfl

theorem bind_ok {a : Action S α} {s t : S} {x : α} (f : α → Action S β) (h : a s = (.ok x, t)) :
    (a >>= f) s = f x t := by
  rw [bind_eq, h]

theorem bind_error {a : Action S α} {s t : S} {fault : Fault} (f : α → Action S β)
    (h : a s = (.error fault, t)) : (a >>= f) s = (.error fault, t) := by
  rw [bind_eq, h]

theorem bind_eq_ok {a : Action S α} {f : α → Action S β} {s u : S} {y : β}
    (h : (a >>= f) s = (.ok y, u)) : ∃ x t, a s = (.ok x, t) ∧ f x t = (.ok y, u) := by
  rw [bind_eq] at h
  rcases ha : a s with ⟨fault | x, t⟩
  · rw [ha] at h
    cases h
  · rw [ha] at h
    exact ⟨x, t, rfl, h⟩

end Action

namespace Machine

variable {S : Type} {e : Engine S} {limits : Limits}

/-! ## The parts of a cycle -/

/-- **The next instruction,** if there is a frame and it stands at one. -/
def instruction? (m : Machine S) : Option Instruction :=
  m.continuation.top?.bind fun f => (f.script.program.decode f.counter).toOption

def opcode? (m : Machine S) : Option Opcode := m.instruction?.map (·.opcode)

/-- The machine whose innermost frame goes on at another offset. -/
def advance (m : Machine S) (next : Nat) : Machine S :=
  { m with continuation := m.continuation.modifyTop fun f => { f with counter := next } }

/-- **Settling.** What a cycle makes of the result of an instruction that the frame at `slot` carried
out at `position`. -/
def settle (limits : Limits) (slot position : Nat) :
    Except Fault (Option Halt) × Machine S → Outcome × Machine S
  | (.error fault, m) => (.faulted (traced fault slot position m.continuation), m)
  | (.ok (some h), m) => (.halted h, m)
  | (.ok none, m) =>
    if limits.stackDepth < m.continuation.operands.height then
      (.faulted (traced (.ofCause (.stackOverflow limits.stackDepth)) slot position m.continuation), m)
    else (.next, m)

theorem traced_cause (f : Fault) (slot position : Nat) (c : Continuation) :
    (traced f slot position c).cause = f.cause := by
  rw [traced, Fault.withTrace]
  split <;> rfl

theorem top?_push {m : Machine S} {callers : Stack Frame} {f : Frame}
    (h : m.continuation.frames = callers.push f) : m.continuation.top? = some f := by
  rw [Continuation.top?, h]
  rfl

theorem frames_of_top? {m : Machine S} {f : Frame} (h : m.continuation.top? = some f) :
    ∃ callers : Stack Frame, m.continuation.frames = callers.push f := by
  rcases m.continuation.frames.eq_empty_or_push with hf | ⟨callers, g, hf⟩
  · rw [Continuation.top?, hf] at h
    cases h
  · rw [top?_push hf] at h
    cases h
    exact ⟨callers, hf⟩

theorem instruction?_of_decode {m : Machine S} {callers : Stack Frame} {f : Frame} {i : Instruction}
    (h : m.continuation.frames = callers.push f) (hd : f.script.program.decode f.counter = .ok i) :
    m.instruction? = some i := by
  simp [instruction?, top?_push h, hd, Except.toOption]

theorem decoded_of_instruction? {m : Machine S} {i : Instruction} (h : m.instruction? = some i) :
    ∃ (callers : Stack Frame) (f : Frame), m.continuation.frames = callers.push f ∧
      f.script.program.decode f.counter = .ok i := by
  rcases m.continuation.frames.eq_empty_or_push with hf | ⟨callers, f, hf⟩
  · simp [instruction?, Continuation.top?, hf, Stack.empty, Stack.top?] at h
  · rw [instruction?, top?_push hf, Option.bind_some] at h
    cases hd : f.script.program.decode f.counter with
    | error cause => simp [hd, Except.toOption] at h
    | ok j =>
        obtain rfl : j = i := by simpa [hd, Except.toOption] using h
        exact ⟨callers, f, hf, hd⟩

theorem opcode?_of_decode {m : Machine S} {callers : Stack Frame} {f : Frame} {i : Instruction}
    (h : m.continuation.frames = callers.push f) (hd : f.script.program.decode f.counter = .ok i) :
    m.opcode? = some i.opcode := by
  rw [opcode?, instruction?_of_decode h hd]
  rfl

theorem advance_eq {m : Machine S} {callers : Stack Frame} {f : Frame} (next : Nat)
    (h : m.continuation.frames = callers.push f) :
    m.advance next =
      ⟨⟨callers.push { f with counter := next }, m.continuation.operands⟩, m.rest⟩ := by
  rw [advance, Continuation.modifyTop, h]
  rfl

theorem advance_frames {m : Machine S} {callers : Stack Frame} {f : Frame} (next : Nat)
    (h : m.continuation.frames = callers.push f) :
    (m.advance next).continuation.frames = callers.push { f with counter := next } := by
  rw [advance_eq next h]

theorem cycle_of_empty {m : Machine S} (h : m.continuation.frames = .empty) :
    cycle e limits m = (.halted (.completed .void), m) := by
  rw [cycle, h]
  rfl

theorem cycle_of_malformed {m : Machine S} {callers : Stack Frame} {f : Frame}
    {cause : Fault.Cause} (h : m.continuation.frames = callers.push f)
    (hd : f.script.program.decode f.counter = .error cause) :
    cycle e limits m =
      (.faulted (traced (.ofCause cause) callers.height f.counter m.continuation), m) := by
  rw [cycle, h, Stack.pop?_push]
  simp only [hd]

/-- A cycle that decodes settles its instruction, carried out with the counter moved past it. -/
theorem cycle_of_decoded {m : Machine S} {callers : Stack Frame} {f : Frame} {i : Instruction}
    (h : m.continuation.frames = callers.push f) (hd : f.script.program.decode f.counter = .ok i) :
    cycle e limits m =
      settle limits callers.height f.counter (perform e limits i.opcode (m.advance i.next)) := by
  rw [cycle, h, Stack.pop?_push]
  simp only [hd, ← advance_eq i.next h]
  rcases perform e limits i.opcode (m.advance i.next) with ⟨fault | _ | halt, t⟩ <;> rfl

/-- **Three ways of a cycle.** There is no frame, or the instruction is malformed, or it is settled. -/
theorem cycle_cases (e : Engine S) (limits : Limits) (m : Machine S) :
    (m.continuation.frames = .empty ∧ cycle e limits m = (.halted (.completed .void), m)) ∨
    (∃ (callers : Stack Frame) (f : Frame) (cause : Fault.Cause), m.continuation.frames = callers.push f ∧
      f.script.program.decode f.counter = .error cause ∧
      cycle e limits m =
        (.faulted (traced (.ofCause cause) callers.height f.counter m.continuation), m)) ∨
    (∃ (callers : Stack Frame) (f : Frame) (i : Instruction), m.continuation.frames = callers.push f ∧
      f.script.program.decode f.counter = .ok i ∧
      cycle e limits m =
        settle limits callers.height f.counter (perform e limits i.opcode (m.advance i.next))) := by
  rcases m.continuation.frames.eq_empty_or_push with h | ⟨callers, f, h⟩
  · exact .inl ⟨h, cycle_of_empty h⟩
  · cases hd : f.script.program.decode f.counter with
    | error cause => exact .inr (.inl ⟨callers, f, cause, h, hd, cycle_of_malformed h hd⟩)
    | ok i => exact .inr (.inr ⟨callers, f, i, h, hd, cycle_of_decoded h hd⟩)

/-- A cycle goes on exactly if its instruction does and leaves the operands within their limit. -/
theorem settle_eq_next {slot position : Nat} {r : Except Fault (Option Halt) × Machine S}
    {m : Machine S} : settle limits slot position r = (.next, m) ↔
      r = (.ok none, m) ∧ m.continuation.operands.height ≤ limits.stackDepth := by
  rcases r with ⟨fault | _ | halt, t⟩
  · simp [settle]
  · by_cases h : limits.stackDepth < t.continuation.operands.height
    · simp only [settle, if_pos h, Prod.mk.injEq, reduceCtorEq, false_and, false_iff, true_and]
      rintro ⟨rfl, hle⟩
      omega
    · simp only [settle, if_neg h, Prod.mk.injEq, true_and]
      constructor
      · rintro rfl
        exact ⟨rfl, by omega⟩
      · rintro ⟨rfl, -⟩
        rfl
  · simp [settle]

@[simp] theorem settle_snd (slot position : Nat) (r : Except Fault (Option Halt) × Machine S) :
    (settle limits slot position r).2 = r.2 := by
  rcases r with ⟨fault | _ | halt, t⟩
  · rfl
  · simp only [settle]
    split <;> rfl
  · rfl

theorem settle_eq_halted {slot position : Nat} {r : Except Fault (Option Halt) × Machine S}
    {h : Halt} {m : Machine S} :
    settle limits slot position r = (.halted h, m) ↔ r = (.ok (some h), m) := by
  rcases r with ⟨fault | _ | halt, t⟩
  · simp [settle]
  · simp only [settle]
    split <;> simp
  · simp [settle]

/-- After a cycle that goes on the operands are within their limit. -/
theorem within_of_cycle_next {m m₁ : Machine S} (h : cycle e limits m = (.next, m₁)) :
    m₁.continuation.operands.height ≤ limits.stackDepth := by
  rcases cycle_cases e limits m with ⟨-, hc⟩ | ⟨_, _, _, -, -, hc⟩ | ⟨_, _, _, -, -, hc⟩
  · rw [hc] at h
    cases h
  · rw [hc] at h
    cases h
  · rw [hc] at h
    exact (settle_eq_next.mp h).2

/-- A nested call enters a frame, unless there are too many. -/
theorem branch_link (limits : Limits) (target : Nat) {m : Machine S} {f : Frame}
    (h : m.continuation.top? = some f) :
    branch limits target .link m =
      if limits.callDepth ≤ m.continuation.depth then
        (.error (.ofCause (.callStackOverflow limits.callDepth)), m)
      else (.ok (), { m with continuation := m.continuation.pushFrame (f.nested target) }) := by
  simp only [branch]
  rw [Action.bind_eq]
  show (if _ then _ else _ : Action (Machine S) Unit) m = _
  split
  · rfl
  · rw [Action.bind_eq]
    simp only [top, h]
    rfl

theorem perform_call (keeps : Bool) (id : VerbId) (m : Machine S) :
    perform e limits (.call keeps id) m = match e.invoke id keeps m with
      | (.ok (.value v), m) => (.ok none, if keeps then
          { m with continuation :=
            { m.continuation with operands := m.continuation.operands.push v } } else m)
      | (.ok .suspend, m) => (.ok (some .suspended), m)
      | (.ok .restart, m) => (.ok (some .restarting), m)
      | (.error fault, m) => (.error fault, m) := by
  simp only [perform, call]
  rw [Action.bind_eq]
  rcases e.invoke id keeps m with ⟨fault | flow, t⟩
  · rfl
  · cases flow with
    | value v => cases keeps <;> rfl
    | suspend => rfl
    | restart => rfl

/-- **What stops a run:** a return from the last frame, or a verb that asks for it. -/
theorem perform_eq_halt {o : Opcode} {m m' : Machine S} {h : Halt}
    (hp : perform e limits o m = (.ok (some h), m')) :
    (o = .ret ∧ ∃ v, h = .completed v) ∨ ∃ keeps id, o = .call keeps id ∧
      ((h = .suspended ∧ e.invoke id keeps m = (.ok .suspend, m')) ∨
        (h = .restarting ∧ e.invoke id keeps m = (.ok .restart, m'))) := by
  -- All other instructions end by going on, so their last action cannot have answered a halt.
  cases o with
  | push v => cases hp
  | dup =>
      obtain ⟨_, _, -, hp⟩ := Action.bind_eq_ok hp
      obtain ⟨_, _, -, hp⟩ := Action.bind_eq_ok hp
      cases hp
  | memory op address | branch op target | unary op =>
      obtain ⟨_, _, -, hp⟩ := Action.bind_eq_ok hp
      cases hp
  | binary op =>
      obtain ⟨_, _, -, hp⟩ := Action.bind_eq_ok hp
      obtain ⟨_, _, -, hp⟩ := Action.bind_eq_ok hp
      obtain ⟨_, _, -, hp⟩ := Action.bind_eq_ok hp
      cases hp
  | ret =>
      refine .inl ⟨rfl, ?_⟩
      rcases hr : m.continuation.retire with ⟨_ | v, c⟩
      · simp only [perform, retire, hr] at hp
        cases hp
      · simp only [perform, retire, hr] at hp
        cases hp
        exact ⟨v, rfl⟩
  | call keeps id =>
      refine .inr ⟨keeps, id, rfl, ?_⟩
      rw [perform_call] at hp
      rcases hi : e.invoke id keeps m with ⟨fault | v | _ | _, t⟩
      · rw [hi] at hp; cases hp
      · rw [hi] at hp; cases hp
      · rw [hi] at hp; cases hp; exact .inl ⟨rfl, rfl⟩
      · rw [hi] at hp; cases hp; exact .inr ⟨rfl, rfl⟩

/-! ## Calls -/

/-- **A call answers.** The next instruction calls a verb, which answers `r` and leaves `m'`. -/
def CallAnswers (e : Engine S) (keeps : Bool) (r : Except Fault Flow) (m m' : Machine S) : Prop :=
  ∃ ins id, m.instruction? = some ins ∧ ins.opcode = .call keeps id ∧
    e.invoke id keeps (m.advance ins.next) = (r, m')

theorem CallAnswers.decoded {keeps : Bool} {r : Except Fault Flow} {m m' : Machine S}
    (h : CallAnswers e keeps r m m') :
    ∃ (callers : Stack Frame) (f : Frame) (ins : Instruction) (id : VerbId),
      m.continuation.frames = callers.push f ∧ f.script.program.decode f.counter = .ok ins ∧
      ins.opcode = .call keeps id ∧ e.invoke id keeps (m.advance ins.next) = (r, m') := by
  obtain ⟨ins, id, hins, ho, hinv⟩ := h
  obtain ⟨callers, f, hf, hd⟩ := decoded_of_instruction? hins
  exact ⟨callers, f, ins, id, hf, hd, ho, hinv⟩

/-- **The cycles that stop a run** short of completing are those whose call asks for it. -/
theorem cycle_eq_stopped {halt : Halt} {flow : Flow} {m m' : Machine S}
    (h : halt = .suspended ∧ flow = .suspend ∨ halt = .restarting ∧ flow = .restart) :
    cycle e limits m = (.halted halt, m') ↔ ∃ keeps, CallAnswers e keeps (.ok flow) m m' := by
  constructor
  · intro hc
    rcases cycle_cases e limits m with
      ⟨-, hc'⟩ | ⟨_, _, _, -, -, hc'⟩ | ⟨callers, f, ins, hf, hd, hc'⟩
    · rw [hc'] at hc
      cases hc
      simp at h
    · rw [hc'] at hc
      cases hc
    · rw [hc', settle_eq_halted] at hc
      rcases perform_eq_halt hc with ⟨-, v, rfl⟩ | ⟨keeps, id, ho, hanswer⟩
      · simp at h
      · refine ⟨keeps, ins, id, instruction?_of_decode hf hd, ho, ?_⟩
        rcases h with ⟨rfl, rfl⟩ | ⟨rfl, rfl⟩
        · simpa using hanswer
        · simpa using hanswer
  · rintro ⟨keeps, hcall⟩
    obtain ⟨callers, f, ins, id, hf, hd, ho, hinv⟩ := hcall.decoded
    rw [cycle_of_decoded hf hd, settle_eq_halted, ho, perform_call, hinv]
    rcases h with ⟨rfl, rfl⟩ | ⟨rfl, rfl⟩
    · rfl
    · rfl

/-! ## Runs -/

def restarts (e : Engine S) (limits : Limits) (m : Machine S) : Bool :=
  (cycle e limits m).1 = .halted .restarting

theorem restarts_of_cycle {m m' : Machine S} (h : cycle e limits m = (.halted .restarting, m')) :
    m.restarts e limits = true := by
  simp [restarts, h]

/-- **States of a run.** The states in which its cycles begin, in order. -/
def visited (e : Engine S) (limits : Limits) : Nat → Machine S → List (Machine S)
  | 0, _ => []
  | fuel + 1, m =>
    m :: match cycle e limits m with
      | (.next, m) => visited e limits fuel m
      | _ => []

/-- **Steps.** `Steps e limits seen m m'`: cycles that all go on lead from `m` to `m'`, and begin in
the states `seen`. -/
inductive Steps (e : Engine S) (limits : Limits) :
    List (Machine S) → Machine S → Machine S → Prop where
  | refl (m : Machine S) : Steps e limits [] m m
  | step {seen : List (Machine S)} {m m₁ m' : Machine S} :
      cycle e limits m = (.next, m₁) → Steps e limits seen m₁ m' → Steps e limits (m :: seen) m m'

/-- How a run ends in a state whose cycle stops it. -/
inductive Stops (e : Engine S) (limits : Limits) (m : Machine S) :
    Except Fault Halt → Machine S → Prop where
  | halted {h : Halt} {m' : Machine S} :
      cycle e limits m = (.halted h, m') → Stops e limits m (.ok h) m'
  | faulted {f : Fault} {m' : Machine S} :
      cycle e limits m = (.faulted f, m') → Stops e limits m (.error f) m'

/-- **A run that ends** went through steps and stopped. -/
theorem run_eq_some {fuel : Nat} {m m' : Machine S} {r : Except Fault Halt}
    (h : run e limits fuel m = some (r, m')) :
    ∃ seen m₁, Steps e limits seen m m₁ ∧ Stops e limits m₁ r m' ∧
      visited e limits fuel m = seen ++ [m₁] := by
  induction fuel generalizing m with
  | zero => cases h
  | succ fuel ih =>
      rcases hc : cycle e limits m with ⟨_ | halt | fault, m₁⟩
      · simp only [run, hc] at h
        obtain ⟨seen, m₂, hs, hstop, hv⟩ := ih h
        refine ⟨m :: seen, m₂, .step hc hs, hstop, ?_⟩
        simp only [visited, hc, hv, List.cons_append]
      · simp only [run, hc] at h
        cases h
        exact ⟨[], m, .refl m, .halted hc, by simp [visited, hc]⟩
      · simp only [run, hc] at h
        cases h
        exact ⟨[], m, .refl m, .faulted hc, by simp [visited, hc]⟩

theorem length_visited_le (e : Engine S) (limits : Limits) (fuel : Nat) (m : Machine S) :
    (visited e limits fuel m).length ≤ fuel := by
  induction fuel generalizing m with
  | zero => simp [visited]
  | succ fuel ih =>
      simp only [visited, List.length_cons]
      split
      · exact Nat.succ_le_succ (ih _)
      · simp

/-- A run ends as its steps and its stop say, once there is fuel for all of them. -/
theorem run_of_steps {fuel : Nat} {seen : List (Machine S)} {m m₁ m' : Machine S}
    {r : Except Fault Halt} (hs : Steps e limits seen m m₁) (hstop : Stops e limits m₁ r m')
    (hfuel : seen.length < fuel) : run e limits fuel m = some (r, m') := by
  induction hs generalizing fuel with
  | refl m =>
      obtain ⟨n, rfl⟩ : ∃ n, fuel = n + 1 := ⟨fuel - 1, by simp at hfuel; omega⟩
      cases hstop with
      | halted hc => simp only [run, hc]
      | faulted hc => simp only [run, hc]
  | step hc _ ih =>
      obtain ⟨n, rfl⟩ : ∃ n, fuel = n + 1 := ⟨fuel - 1, by simp at hfuel; omega⟩
      simp only [run, hc]
      exact ih hstop (by simp at hfuel; omega)

theorem run_mono {fuel fuel' : Nat} {m m' : Machine S} {r : Except Fault Halt}
    (hle : fuel ≤ fuel') (h : run e limits fuel m = some (r, m')) :
    run e limits fuel' m = some (r, m') := by
  obtain ⟨seen, m₁, hs, hstop, hv⟩ := run_eq_some h
  have hlen := length_visited_le e limits fuel m
  rw [hv, List.length_append] at hlen
  simp only [List.length_cons, List.length_nil] at hlen
  exact run_of_steps hs hstop (by omega)

end Machine
end CogMachine
