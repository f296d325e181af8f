import CogMachine.Machine.Transient
import CogMachine.Proofs.Attempt
import CogMachine.Proofs.Execution
import CogMachine.Proofs.Places

/-!
# States that can be reached

Runs, executions and what a host does between them all go from one state to the next, so what holds of
their states is shown by one induction.

- `Machine.Continues` leads along one run until a cycle faults, which `Continues.faulted_unique` makes its
  last; `Machine.Reachable` are the states that cycles lead to, also across the end of an execution.
- `Reachable.placed`: no frame ever leaves a closed set of offsets, if the engine is orderly. Both engines
  are (`Transient.orderly`, `Resumable.orderly`).
- `Reachable.of_run` and `Reachable.of_execute`: runs and executions stay among these states, and their
  faults are raised by the cycle that they continue to.
-/

namespace CogMachine

namespace Machine

variable {S : Type} {e : Engine S} {limits : Limits} {script : Script} {P : Nat → Prop}
variable {m m' m₀ : Machine S}

/-! ## Reachable states -/

/-- **A run under way.** It continues to the states that its cycles lead to, none of which has faulted. -/
inductive Continues (e : Engine S) (limits : Limits) (m : Machine S) : Machine S → Prop where
  | start : Continues e limits m m
  | cycle {m₁ m₂ : Machine S} {o : Outcome} :
      Continues e limits m m₁ → Machine.cycle e limits m₁ = (o, m₂) → (∀ f, o ≠ .faulted f) →
      Continues e limits m m₂

/-- **Reachable states.** Those that cycles lead to. Where an execution has ended the host may go on with
it later, and may have changed anything by then but the places of the frames. -/
inductive Reachable (e : Engine S) (limits : Limits) (m₀ : Machine S) : Machine S → Prop where
  | start : Reachable e limits m₀ m₀
  | cycle {m : Machine S} :
      Reachable e limits m₀ m → Reachable e limits m₀ (Machine.cycle e limits m).2
  | host {m m' : Machine S} :
      Reachable e limits m₀ m → m'.continuation.places = m.continuation.places →
      Reachable e limits m₀ m'

namespace Continues

theorem head_cases (h : Continues e limits m m') :
    m' = m ∨ (∀ f, (Machine.cycle e limits m).1 ≠ .faulted f) ∧
      Continues e limits (Machine.cycle e limits m).2 m' := by
  induction h with
  | start => exact .inl rfl
  | cycle _ hc hnext ih =>
      right
      rcases ih with rfl | ⟨hfirst, ih⟩
      · rw [hc]
        exact ⟨hnext, .start⟩
      · exact ⟨hfirst, ih.cycle hc hnext⟩

/-- A run continues from each of its states to the one whose cycle faults. -/
theorem to_faulted {m₁ : Machine S} {f : Fault} (h : Continues e limits m m₁)
    (hf : (Machine.cycle e limits m₁).1 = .faulted f) (h' : Continues e limits m m') :
    Continues e limits m' m₁ := by
  induction h' with
  | start => exact h
  | cycle _ hc hnext ih =>
      rcases ih.head_cases with rfl | ⟨-, ih⟩
      · rw [hc] at hf
        exact absurd hf (hnext f)
      · rwa [hc] at ih

/-- **The last cycle.** A run continues to one state at most whose cycle faults. -/
theorem faulted_unique {m₁ m₂ : Machine S} {f₁ f₂ : Fault} (h₁ : Continues e limits m m₁)
    (hf₁ : (Machine.cycle e limits m₁).1 = .faulted f₁) (h₂ : Continues e limits m m₂)
    (hf₂ : (Machine.cycle e limits m₂).1 = .faulted f₂) : m₁ = m₂ := by
  rcases (h₁.to_faulted hf₁ h₂).head_cases with heq | ⟨hnext, -⟩
  · exact heq
  · exact absurd hf₂ (hnext f₂)

theorem of_steps {seen : List (Machine S)} (h : Continues e limits m₀ m)
    (hs : Steps e limits seen m m') : Continues e limits m₀ m' := by
  induction hs with
  | refl => exact h
  | step hc _ ih => exact ih (h.cycle hc nofun)

end Continues

namespace Reachable

/-- **The run.** No state that can be reached has a frame outside a closed set. -/
theorem placed (he : Orderly e) (hclosed : Closed script P) (h₀ : m₀.Placed script P)
    (h : Reachable e limits m₀ m) : m.Placed script P := by
  induction h with
  | start => exact h₀
  | cycle _ ih => exact ih.cycle he hclosed
  | host _ hsame ih => exact ih.of_places hsame

theorem of_cycle {o : Outcome} (h : Reachable e limits m₀ m) (hc : Machine.cycle e limits m = (o, m')) :
    Reachable e limits m₀ m' := by
  have hnext := h.cycle
  rw [hc] at hnext
  exact hnext

theorem of_continues (h : Reachable e limits m₀ m) (hc : Continues e limits m m') :
    Reachable e limits m₀ m' := by
  induction hc with
  | start => exact h
  | cycle _ hc _ ih => exact ih.of_cycle hc

/-- A run from a reachable state ends in one, and its fault is that of its last cycle. -/
theorem of_run {fuel : Nat} {r : Except Fault Halt} (h : Reachable e limits m₀ m)
    (hrun : Machine.run e limits fuel m = some (r, m')) :
    Reachable e limits m₀ m' ∧ ∀ f, r = .error f →
      ∃ m₁, Continues e limits m m₁ ∧ Machine.cycle e limits m₁ = (.faulted f, m') := by
  obtain ⟨seen, m₁, hs, hstop, -⟩ := run_eq_some hrun
  have hcont : Continues e limits m m₁ := Continues.start.of_steps hs
  have h₁ := h.of_continues hcont
  cases hstop with
  | halted hc =>
      refine ⟨h₁.of_cycle hc, ?_⟩
      intro f hf
      cases hf
  | faulted hc =>
      refine ⟨h₁.of_cycle hc, ?_⟩
      intro f hf
      cases hf
      exact ⟨m₁, hcont, hc⟩

end Reachable
end Machine

/-! ## The two engines -/

/-- The one fault of a memory. -/
theorem Memory.cause_of_index {memory : Memory} {address : Int} {cause : Fault.Cause}
    (h : memory.index address = .error cause) : cause = .memoryOutOfRange address memory.size := by
  unfold index at h
  split at h
  · cases h
  · cases h
    rfl

theorem Memory.cause_of_load {memory : Memory} {address : Int} {cause : Fault.Cause}
    (h : memory.load address = .error cause) : cause = .memoryOutOfRange address memory.size := by
  unfold load at h
  cases hi : memory.index address with
  | ok i =>
      rw [hi] at h
      cases h
  | error cause' =>
      rw [hi] at h
      cases h
      exact cause_of_index hi

theorem Memories.inCode_of_bound {ms : Memories} {id? : Option MemoryId} {cause : Fault.Cause}
    (h : ms.bound id? = .error cause) : cause.inCode = false := by
  unfold bound at h
  split at h
  · cases h
  · cases h
    rfl

theorem Memories.inCode_of_load {ms : Memories} {id? : Option MemoryId} {address : Int}
    {cause : Fault.Cause} (h : ms.load id? address = .error cause) : cause.inCode = false := by
  unfold load at h
  rcases Attempt.bind_eq_error h with hbound | ⟨⟨id, memory⟩, -, h⟩
  · exact inCode_of_bound hbound
  · rw [Memory.cause_of_load h]
    rfl

theorem Memories.inCode_of_locate {ms : Memories} {id? : Option MemoryId} {address : Int}
    {cause : Fault.Cause} (h : ms.locate id? address = .error cause) : cause.inCode = false := by
  unfold locate at h
  rcases Attempt.bind_eq_error h with hbound | ⟨⟨id, memory⟩, -, h⟩
  · exact inCode_of_bound hbound
  · rcases Attempt.bind_eq_error h with hindex | ⟨i, -, h⟩
    · rw [Memory.cause_of_index hindex]
      rfl
    · cases h

/-- The machine of a run that has passed its entry check. -/
def Transient.started {ω : Type} (script : Script) (entry : Nat) (s : State ω) : Machine (State ω) :=
  ⟨.ofFrame (.enter script entry), { s with heap := reserve script.symbols s.heap }⟩

/-- A store of the transient engine fails only outside the heap. -/
theorem Transient.fault_of_store {ω : Type} {verbs : VerbTable (Handler ω)} {f : Frame} {address : Int}
    {v : Value} {s : State ω} {fault : Fault}
    (h : ((engine verbs).store f address v s).1 = .error fault) :
    fault = .ofCause (.memoryOutOfRange address s.heap.size) := by
  simp only [engine] at h
  cases hi : s.heap.index address with
  | ok i =>
      rw [hi] at h
      cases h
  | error cause =>
      rw [hi] at h
      cases h
      rw [Memory.cause_of_index hi]

/-- **The transient engine is orderly:** its verbs are not lent the frames. -/
theorem Transient.orderly {ω : Type} (verbs : VerbTable (Handler ω)) :
    Machine.Orderly (engine verbs) where
  load s f address cause h := by
    rw [Memory.cause_of_load h]
    rfl
  store f address v s fault h := by
    rw [Transient.fault_of_store h]
    rfl
  invoke id keeps m := by
    simp only [engine, invoke]
    cases verbs.get id with
    | error cause => rfl
    | ok verb => rfl

namespace Resumable

variable {σ : Type} {verbs : VerbTable (Handler σ)} {limits : Limits}

/-- **A verb that keeps the frames in place.** It may change everything else, and answer anything. -/
def KeepsPlaces (handler : Handler σ) : Prop :=
  ∀ keeps m, (handler keeps m).2.continuation.places = m.continuation.places

/-- A store of the resumable engine fails only where there is no such cell. -/
theorem fault_of_store {f : Frame} {address : Int} {v : Value} {w : World σ} {fault : Fault}
    (h : ((engine verbs).store f address v w).1 = .error fault) :
    ∃ cause, w.memories.locate f.memory address = .error cause ∧ fault = .ofCause cause := by
  simp only [engine] at h
  cases hl : w.memories.locate f.memory address with
  | ok found =>
      rw [hl] at h
      cases h
  | error cause =>
      rw [hl] at h
      cases h
      exact ⟨cause, rfl, rfl⟩

/-- **The resumable engine is orderly** if its verbs keep the frames in place. -/
theorem orderly (hverbs : ∀ v ∈ verbs.verbs, KeepsPlaces v.handler) :
    Machine.Orderly (engine verbs) where
  load w f address cause h := Memories.inCode_of_load h
  store f address v w fault h := by
    obtain ⟨cause, hl, rfl⟩ := fault_of_store h
    exact Memories.inCode_of_locate hl
  invoke id keeps m := by
    simp only [engine, invoke]
    cases hv : verbs.get id with
    | error cause => rfl
    | ok verb => exact hverbs verb (VerbTable.mem_of_get hv) keeps m

end Resumable

namespace Machine

variable {σ : Type} {verbs : VerbTable (Resumable.Handler σ)} {limits : Limits}
variable {m₀ m m' : Machine (Resumable.World σ)}

theorem Continues.of_leads {seen : List (Machine (Resumable.World σ))} {b b' : Nat}
    (h : Continues (Resumable.engine verbs) limits m₀ m)
    (hl : Resumable.Leads verbs limits seen b m b' m') :
    Continues (Resumable.engine verbs) limits m₀ m' := by
  induction hl with
  | refl => exact h
  | next hc _ ih => exact ih (h.cycle hc nofun)
  | restart hc _ ih => exact ih (h.cycle hc nofun)

/-- **An execution** continues to the state whose cycle ends it. -/
theorem Continues.of_execute {fuel : Nat} {r : Except Fault Resumable.Answer}
    (hrun : Resumable.execute verbs limits fuel m = some (r, m')) :
    ∃ b m₁, Continues (Resumable.engine verbs) limits m m₁ ∧ Resumable.Ends verbs limits m₁ b r m' := by
  obtain ⟨fuel, hpasses⟩ := Resumable.exists_execute_iff.1 ⟨fuel, hrun⟩
  obtain ⟨seen, b, m₁, hl, he, -⟩ := Resumable.leads_of_passes hpasses
  exact ⟨b, m₁, Continues.start.of_leads hl, he⟩

/-- An execution that answers has continued through its last cycle. -/
theorem Continues.of_answer {fuel : Nat} {a : Resumable.Answer}
    (hrun : Resumable.execute verbs limits fuel m = some (.ok a, m')) :
    Continues (Resumable.engine verbs) limits m m' := by
  obtain ⟨b, m₁, hcont, he⟩ := of_execute hrun
  cases he with
  | completed hc | suspended hc => exact hcont.cycle hc nofun

/-- An execution of a reachable state ends in one, and its fault is that of its last cycle, or that there
were too many restarts. -/
theorem Reachable.of_execute {fuel : Nat} {r : Except Fault Resumable.Answer}
    (h : Reachable (Resumable.engine verbs) limits m₀ m)
    (hrun : Resumable.execute verbs limits fuel m = some (r, m')) :
    Reachable (Resumable.engine verbs) limits m₀ m' ∧ ∀ f, r = .error f →
      f.cause = .restartLimit limits.restarts ∨
      ∃ m₁, Continues (Resumable.engine verbs) limits m m₁ ∧
        Machine.cycle (Resumable.engine verbs) limits m₁ = (.faulted f, m') := by
  obtain ⟨b, m₁, hcont, he⟩ := Continues.of_execute hrun
  have h₁ := h.of_continues hcont
  cases he with
  | completed hc | suspended hc =>
      refine ⟨h₁.of_cycle hc, ?_⟩
      intro f hf
      cases hf
  | faulted hc =>
      refine ⟨h₁.of_cycle hc, ?_⟩
      intro f hf
      cases hf
      exact .inr ⟨m₁, hcont, hc⟩
  | exhausted hc =>
      refine ⟨h₁.of_cycle hc, ?_⟩
      intro f hf
      cases hf
      exact .inl rfl

end Machine
end CogMachine
