import CogMachine.Machine.Resumable
import CogMachine.Machine.Transient
import CogMachine.Proofs.Frames
import CogMachine.Proofs.Simulation

/-!
# The two engines side by side

A machine of the resumable engine, all of whose frames use one memory, is seen as a machine of the
transient engine: that memory is the heap, and what a message handed to the frames is left out.

- `Continuation.mapFrames`: frames seen through a function that keeps what a return looks at.
- `Mirrors` says when a verb of the one engine is that of the other, and `SameVerbs` when two tables
  have the same verbs under the same ids. What the host keeps is seen through a `view`.
- `projection` is the simulation. Nothing is lost and nothing is in excess, so it is an equality of
  cycles (`cycle_project`) and, by induction on the fuel, of runs (`run_project`).
- With such tables a run that halts completes (`completed_of_run`).
-/

namespace CogMachine

def Frame.bare (f : Frame) : Frame := { f with memory := none, context := .empty }

namespace Continuation

/-! ## Frames seen through a function -/

def mapFrames (g : Frame → Frame) (c : Continuation) : Continuation := ⟨c.frames.map g, c.operands⟩

theorem mapFrames_modifyTop {g k l : Frame → Frame} (h : ∀ f, g (k f) = l (g f)) (c : Continuation) :
    (c.modifyTop k).mapFrames g = (c.mapFrames g).modifyTop l := by
  obtain ⟨frames, operands⟩ := c
  rcases frames.eq_empty_or_push with rfl | ⟨callers, f, rfl⟩
  · rfl
  · simp only [modifyTop, mapFrames, Stack.modifyTop_push, Stack.map_push, h]

/-- **What a return looks at** is kept by the function. -/
structure KeepsReturn (g : Frame → Frame) : Prop where
  returned : ∀ f, (g f).returned = f.returned
  height : ∀ f, (g f).height = f.height
  savesResult : ∀ f, (g f).savesResult = f.savesResult
  pushesResult : ∀ f, (g f).pushesResult = f.pushesResult
  setResult : ∀ f v, (g f).setResult v = g (f.setResult v)

variable {g : Frame → Frame}

theorem KeepsReturn.resultOf (hg : KeepsReturn g) (operands : Stack Value) (f : Frame) :
    resultOf operands (g f) = resultOf operands f := by
  rw [Continuation.resultOf, Continuation.resultOf, hg.returned, hg.height]

theorem KeepsReturn.deliver (hg : KeepsReturn g) (f : Frame) (v : Value) (operands : Stack Value) :
    deliver (g f) v operands = deliver f v operands := by
  rw [Continuation.deliver, Continuation.deliver, hg.pushesResult]

theorem KeepsReturn.receive (hg : KeepsReturn g) (f : Frame) (v : Value) (caller : Frame) :
    receive (g f) v (g caller) = g (receive f v caller) := by
  rw [Continuation.receive, Continuation.receive, hg.savesResult]
  split
  · exact hg.setResult caller v
  · rfl

/-- **A return** is the same through such a function. -/
theorem mapFrames_retire (hg : KeepsReturn g) (c : Continuation) :
    (c.mapFrames g).retire = (c.retire.1, c.retire.2.mapFrames g) := by
  obtain ⟨frames, operands⟩ := c
  rcases frames.eq_empty_or_push with rfl | ⟨callers, f, rfl⟩
  · rfl
  · rcases callers.eq_empty_or_push with rfl | ⟨rest, caller, rfl⟩
    · have hframes : (mapFrames g ⟨Stack.empty.push f, operands⟩).frames = Stack.empty.push (g f) := rfl
      rw [retire_last hframes, retire_last rfl, hg.resultOf]
      rfl
    · have hframes : (mapFrames g ⟨(rest.push caller).push f, operands⟩).frames =
          ((rest.map g).push (g caller)).push (g f) := rfl
      rw [retire_push_push hframes, retire_push_push rfl, hg.resultOf, hg.receive, hg.deliver, hg.height]
      rfl

/-! ## Without memories and messages -/

def bare (c : Continuation) : Continuation := ⟨c.frames.map Frame.bare, c.operands⟩

@[simp] theorem bare_trace (c : Continuation) : c.bare.trace = c.trace := by
  simp only [trace, bare, Stack.toList_map, List.map_map]
  rfl

@[simp] theorem bare_top? (c : Continuation) : c.bare.top? = c.top?.map Frame.bare :=
  Stack.top?_map Frame.bare c.frames

theorem bare_modifyTop {g : Frame → Frame} (hg : ∀ f, (g f).bare = g f.bare) (c : Continuation) :
    (c.modifyTop g).bare = c.bare.modifyTop g :=
  mapFrames_modifyTop hg c

/-- Returning does not look at what a message handed to the frames. -/
theorem keepsReturn_bare : KeepsReturn Frame.bare where
  returned _ := rfl
  height _ := rfl
  savesResult _ := rfl
  pushesResult _ := rfl
  setResult _ _ := rfl

theorem bare_retire (c : Continuation) : c.bare.retire = (c.retire.1, c.retire.2.bare) :=
  mapFrames_retire keepsReturn_bare c

end Continuation

namespace Resumable

variable {σ ω : Type}

/-! ## Verbs of the two engines -/

/-- **The same verb.** The resumable verb does to the operands what the transient verb does, and to
what the host keeps, seen through `view`; it answers with the same value and changes nothing else. -/
def Mirrors (view : σ → ω) (handler : Transient.Handler ω) (handler' : Handler σ) : Prop :=
  ∀ keeps (m : Machine (World σ)),
    (handler' keeps m).1 =
      (handler ⟨m.continuation.operands, view m.rest.services⟩).1.map Flow.value ∧
    (handler' keeps m).2.continuation = { m.continuation with
      operands := (handler ⟨m.continuation.operands, view m.rest.services⟩).2.operands } ∧
    (handler' keeps m).2.rest.memories = m.rest.memories ∧
    view (handler' keeps m).2.rest.services =
      (handler ⟨m.continuation.operands, view m.rest.services⟩).2.host

/-- **The same verbs** under the same ids. -/
def SameVerbs (view : σ → ω) (t : VerbTable (Transient.Handler ω)) (t' : VerbTable (Handler σ)) :
    Prop :=
  ∀ i : Nat, Option.Rel
    (fun (v : Verb (Transient.Handler ω)) (v' : Verb (Handler σ)) =>
      Mirrors view v.handler v'.handler) t.verbs[i]? t'.verbs[i]?

/-- Looking up finds the same verb in both tables, or none in either. -/
theorem SameVerbs.get {view : σ → ω} {t : VerbTable (Transient.Handler ω)}
    {t' : VerbTable (Handler σ)} (h : SameVerbs view t t') (n : VerbId) :
    (∃ v v', t.get n = .ok v ∧ t'.get n = .ok v' ∧ Mirrors view v.handler v'.handler) ∨
    (∃ cause, t.get n = .error cause ∧ t'.get n = .error cause) := by
  rw [VerbTable.get_eq, VerbTable.get_eq]
  by_cases hneg : n.number.toInt < 0
  · rw [if_pos hneg, if_pos hneg]
    exact .inr ⟨_, rfl, rfl⟩
  · rw [if_neg hneg, if_neg hneg]
    have hrel := h n.number.toInt.toNat
    generalize t.verbs[n.number.toInt.toNat]? = found at hrel
    generalize t'.verbs[n.number.toInt.toNat]? = found' at hrel
    cases hrel with
    | some hv => exact .inl ⟨_, _, rfl, rfl, hv⟩
    | none => exact .inr ⟨_, rfl, rfl⟩

/-! ## The projection -/

/-- **One memory.** All frames use the memory `owner`, and it has `size` cells. -/
structure Owned (owner : MemoryId) (size : Nat) (m : Machine (World σ)) : Prop where
  frames : ∀ f ∈ m.continuation.frames.items, f.memory = some owner
  cells : ∃ heap, m.rest.memories.get? owner = some heap ∧ heap.size = size

/-- A machine of the resumable engine as one of the transient engine. -/
def project (view : σ → ω) (owner : MemoryId) (m : Machine (World σ)) :
    Machine (Transient.State ω) :=
  ⟨m.continuation.bare, ⟨(m.rest.memories.get? owner).getD .empty, view m.rest.services⟩⟩

/-- **The projection** loses no fault and raises none in excess. -/
def projection (view : σ → ω) (owner : MemoryId) (size : Nat) :
    Simulation (World σ) (Transient.State ω) where
  invariant := Owned owner size
  state := project view owner
  lost _ := False
  excess _ := False

section Actions

variable {view : σ → ω} {owner : MemoryId} {size : Nat} {limits : Limits} {α β : Type}
  {t : VerbTable (Transient.Handler ω)} {t' : VerbTable (Handler σ)}

theorem eq_of_carries {ρ : α → β} {a : Action (Machine (World σ)) α}
    {a' : Action (Machine (Transient.State ω)) β}
    (h : (projection view owner size).Carries ρ a a') {m : Machine (World σ)}
    (hm : Owned owner size m) : Owned owner size (a m).2 ∧
      a' (project view owner m) = ((a m).1.map ρ, project view owner (a m).2) := by
  rcases h m hm with hsame | ⟨_, _, -, hlost⟩ | ⟨_, _, -, hexcess⟩
  · exact hsame
  · exact hlost.elim
  · exact hexcess.elim

/-- Machines whose frames are those of a machine that owns its memory own it too. -/
theorem Owned.of_frames {m m₁ : Machine (World σ)} (h : Owned owner size m)
    (hframes : ∀ f ∈ m₁.continuation.frames.items, f.memory = some owner)
    (hrest : m₁.rest.memories = m.rest.memories) : Owned owner size m₁ :=
  ⟨hframes, hrest ▸ h.cells⟩

theorem Owned.top {m : Machine (World σ)} {f : Frame} (h : Owned owner size m)
    (hf : m.continuation.top? = some f) : f.memory = some owner :=
  h.frames f (List.mem_of_head? hf)

theorem project_pop : (projection view owner size).Carries id Machine.pop Machine.pop := by
  intro m hm
  refine .inl ?_
  obtain ⟨⟨frames, operands⟩, rest⟩ := m
  rcases operands.eq_empty_or_push with rfl | ⟨below, v, rfl⟩
  · exact ⟨hm, rfl⟩
  · exact ⟨⟨hm.frames, hm.cells⟩, rfl⟩

theorem project_push (v : Value) :
    (projection view owner size).Carries id (Machine.push v) (Machine.push v) := by
  intro m hm
  exact .inl ⟨⟨hm.frames, hm.cells⟩, rfl⟩

theorem project_dup : (projection view owner size).Carries id
    (Machine.perform (engine t') limits .dup)
    (Machine.perform (Transient.engine t) limits .dup) := by
  refine Simulation.Carries.get_bind fun m _ => ?_
  exact (Simulation.Carries.lift _).bind fun v => (project_push v).bind fun _ => .pure id _

/-- The frames stay owned when the innermost changes, but for its memory. -/
theorem Owned.modifyTop {m : Machine (World σ)} (h : Owned owner size m) {k : Frame → Frame}
    (hk : ∀ f, (k f).memory = f.memory) :
    Owned owner size { m with continuation := m.continuation.modifyTop k } := by
  refine h.of_frames ?_ rfl
  exact Continuation.Every.modifyTop h.frames fun f hf => (hk f).trans hf

theorem project_jump (target : Nat) :
    (projection view owner size).Carries id (Machine.jump target) (Machine.jump target) := by
  intro m hm
  refine .inl ⟨Owned.modifyTop hm fun _ => rfl, ?_⟩
  have hbare := Continuation.bare_modifyTop (g := fun f => { f with counter := target })
    (fun _ => rfl) m.continuation
  show (Except.ok (), Machine.mk (m.continuation.bare.modifyTop _) _) =
    (Except.ok (), Machine.mk (m.continuation.modifyTop _).bare _)
  rw [hbare]
  rfl

/-- What is done with the innermost frame may use that it owns the memory. -/
theorem project_top_bind {ρ : α → β} {k : Frame → Action (Machine (World σ)) α}
    {k' : Frame → Action (Machine (Transient.State ω)) β}
    (h : ∀ f, f.memory = some owner → (projection view owner size).Carries ρ (k f) (k' f.bare)) :
    (projection view owner size).Carries ρ (Machine.top >>= k) (Machine.top >>= k') := by
  intro m hm
  have hbare : ((projection view owner size).state m).continuation.top? =
      m.continuation.top?.map Frame.bare := m.continuation.bare_top?
  rw [Action.bind_eq Machine.top k, Action.bind_eq Machine.top k']
  cases htop : m.continuation.top? with
  | none => 
      rw [htop, Option.map_none] at hbare
      simp only [Machine.top, htop, hbare]
      exact .inl ⟨hm, rfl⟩
  | some f =>
      rw [htop, Option.map_some] at hbare
      simp only [Machine.top, htop, hbare]
      exact h f (Owned.top hm htop) m hm

theorem project_load (address : Int) :
    (projection view owner size).Carries id (Machine.load (engine t') address)
      (Machine.load (Transient.engine t) address) := by
  unfold Machine.load
  refine Simulation.Carries.get_bind fun m hm => project_top_bind fun f hf => ?_
  obtain ⟨heap, hheap, -⟩ := hm.cells
  have hsame : (engine t').load m.rest f address =
      (Transient.engine t).load ((projection view owner size).state m).rest f.bare address := by
    show m.rest.memories.load f.memory address =
      ((m.rest.memories.get? owner).getD .empty).load address
    rw [hf, Memories.load_of_get? hheap, hheap]
    rfl
  rw [hsame]
  exact (Simulation.Carries.lift _).bind fun v => project_push v

theorem project_store (address : Int) (v : Value) :
    (projection view owner size).Carries id (Machine.store (engine t') address v)
      (Machine.store (Transient.engine t) address v) := by
  unfold Machine.store
  refine project_top_bind fun f hf => ?_
  rintro ⟨c, ms, services⟩ hm
  refine .inl ?_
  -- Both engines look for the cell in this heap, so they fail alike and write alike.
  obtain ⟨heap, (hheap : ms.get? owner = some heap), hsize⟩ := hm.cells
  have hlocate : ms.locate f.memory address = (heap.index address).map fun i => (owner, i) := by
    rw [hf, Memories.locate_of_get? hheap]
  have hstate : (projection view owner size).state ⟨c, ms, services⟩ =
      ⟨c.bare, ⟨heap, view services⟩⟩ := by
    show Machine.mk c.bare (Transient.State.mk ((ms.get? owner).getD .empty) _) = _
    rw [hheap]
    rfl
  rw [hstate]
  cases hi : heap.index address with
  | error cause =>
      rw [hi] at hlocate
      have hresult : Machine.inRest ((engine t').store f address v) ⟨c, ms, services⟩ =
          (.error (.ofCause cause), ⟨c, ms, services⟩) := by
        simp only [Machine.inRest, engine, hlocate, Except.map]
      rw [hresult]
      refine ⟨hm, ?_⟩
      rw [hstate]
      simp only [Machine.inRest, Transient.engine, hi]
      rfl
  | ok i =>
      rw [hi] at hlocate
      have hresult : Machine.inRest ((engine t').store f address v) ⟨c, ms, services⟩ =
          (.ok (), ⟨c, ⟨ms.set owner i v, services⟩⟩) := by
        simp only [Machine.inRest, engine, hlocate, Except.map]
      have hcell : (ms.set owner i v).get? owner = some (heap.set i v) := by
        rw [Memories.get?_set_self, hheap]
        rfl
      rw [hresult]
      refine ⟨⟨hm.frames, _, hcell, ?_⟩, ?_⟩
      · rw [Memory.size_set, hsize]
      · simp only [Machine.inRest, Transient.engine, hi]
        show _ = (_, Machine.mk c.bare
          (Transient.State.mk (((ms.set owner i v).get? owner).getD .empty) _))
        rw [hcell]
        rfl

theorem project_link (target : Nat) :
    (projection view owner size).Carries id (Machine.branch limits target .link)
      (Machine.branch limits target .link) := by
  refine Simulation.Carries.get_bind fun m hm => ?_
  show (projection view owner size).Carries id
    (if limits.callDepth ≤ m.continuation.depth then _ else _)
    (if limits.callDepth ≤ m.continuation.depth then _ else _)
  by_cases hdeep : limits.callDepth ≤ m.continuation.depth
  · rw [if_pos hdeep, if_pos hdeep]
    exact fun m hm => .inl ⟨hm, rfl⟩
  · rw [if_neg hdeep, if_neg hdeep]
    refine project_top_bind fun f hf => ?_
    intro m₁ hm₁
    refine .inl ⟨?_, rfl⟩
    refine Owned.of_frames hm ?_ rfl
    exact Continuation.Every.pushNested (inherited_memory owner) hm.frames hf target

theorem project_retire :
    (projection view owner size).Carries id Machine.retire Machine.retire := by
  intro m hm
  refine .inl ⟨Owned.of_frames hm (Continuation.Every.retire (inherited_memory owner) hm.frames) rfl, ?_⟩
  have hbare := m.continuation.bare_retire
  show (Except.ok (m.continuation.bare.retire.1.map _), Machine.mk m.continuation.bare.retire.2 _) =
    (Except.ok (m.continuation.retire.1.map _), Machine.mk m.continuation.retire.2.bare _)
  rw [hbare]
  rfl

/-- **The primitive actions carry over.** -/
theorem projection_lawful (t : VerbTable (Transient.Handler ω)) (t' : VerbTable (Handler σ))
    (view : σ → ω) (owner : MemoryId) (size : Nat) (limits : Limits) :
    (projection view owner size).Lawful (engine t') (Transient.engine t) limits limits where
  pop := project_pop
  push := project_push
  dup := project_dup
  jump := project_jump
  link := project_link
  load := project_load
  store := project_store

theorem project_invoke (h : SameVerbs view t t') (keeps : Bool) (n : VerbId) :
    (projection view owner size).Carries id (invoke t' n keeps) (Transient.invoke t n) := by
  intro m hm
  refine .inl ?_
  rcases h.get n with ⟨v, v', hv, hv', hmirror⟩ | ⟨cause, hv, hv'⟩
  · obtain ⟨hflow, hcontinuation, hmemories, hhost⟩ := hmirror keeps m
    have hinvoke : invoke t' n keeps m = v'.handler keeps m := by
      simp only [invoke, hv']
    rw [hinvoke]
    refine ⟨Owned.of_frames hm (by rw [hcontinuation]; exact hm.frames) hmemories, ?_⟩
    rcases hr : v.handler ⟨m.continuation.operands, view m.rest.services⟩ with ⟨result, lent⟩
    rw [hr] at hflow hcontinuation hhost
    have hsame : project view owner (v'.handler keeps m).2 =
        ⟨{ m.continuation.bare with operands := lent.operands },
          ⟨(m.rest.memories.get? owner).getD .empty, lent.host⟩⟩ := by
      rw [project, hcontinuation, hmemories, hhost]
      rfl
    have hverb : v.handler ⟨(project view owner m).continuation.operands,
        (project view owner m).rest.host⟩ = (result, lent) := hr
    show Transient.invoke t n (project view owner m) = (_, project view owner _)
    rw [hsame, hflow]
    simp only [Transient.invoke, hv, hverb]
    cases result <;> rfl
  · have hinvoke : invoke t' n keeps m = (.error (.ofCause cause), m) := by
      simp only [invoke, hv']
    rw [hinvoke]
    refine ⟨hm, ?_⟩
    simp only [Transient.invoke, hv]
    rfl

theorem perform_project (h : SameVerbs view t t') (limits : Limits) (o : Opcode)
    {m : Machine (World σ)} (hm : Owned owner size m) :
    Owned owner size (Machine.perform (engine t') limits o m).2 ∧
      Machine.perform (Transient.engine t) limits o (project view owner m) =
        ((Machine.perform (engine t') limits o m).1,
          project view owner (Machine.perform (engine t') limits o m).2) := by
  have hcarries : (projection view owner size).Carries id
      (Machine.perform (engine t') limits o) (Machine.perform (Transient.engine t) limits o) :=
    (projection_lawful t t' view owner size limits).perform (fun _ _ => rfl)
      (fun keeps n _ => project_invoke h keeps n) fun _ => project_retire
  obtain ⟨howned, heq⟩ := eq_of_carries hcarries hm
  refine ⟨howned, heq.trans ?_⟩
  cases (Machine.perform (engine t') limits o m).1 <;> rfl

/-! ## Cycles and runs -/

theorem project_advance (m : Machine (World σ)) (next : Nat) :
    (project view owner m).advance next = project view owner (m.advance next) := by
  have hbare := Continuation.bare_modifyTop (g := fun f => { f with counter := next })
    (fun _ => rfl) m.continuation
  show Machine.mk (m.continuation.bare.modifyTop _) _ =
    Machine.mk (m.continuation.modifyTop _).bare _
  rw [hbare]
  rfl

/-- Settling looks at nothing that the projection leaves out. -/
theorem settle_project (slot position : Nat) (r : Except Fault (Option Halt) × Machine (World σ)) :
    Machine.settle limits slot position (r.1, project view owner r.2) =
      ((Machine.settle limits slot position r).1,
        project view owner (Machine.settle limits slot position r).2) := by
  obtain ⟨fault | _ | halt, m⟩ := r
  · simp only [Machine.settle, Machine.traced, project, Continuation.bare_trace]
  · simp only [Machine.settle]
    show (if limits.stackDepth < m.continuation.operands.height then _ else _) = _
    split
    · simp only [Machine.traced, project, Continuation.bare_trace]
    · rfl
  · rfl

/-- **Cycles of the two engines** are the same in the projection. -/
theorem cycle_project (h : SameVerbs view t t') (limits : Limits) {m : Machine (World σ)}
    (hm : Owned owner size m) :
    Owned owner size (Machine.cycle (engine t') limits m).2 ∧
      Machine.cycle (Transient.engine t) limits (project view owner m) =
        ((Machine.cycle (engine t') limits m).1,
          project view owner (Machine.cycle (engine t') limits m).2) := by
  -- The projection leaves scripts and counters alone, so both engines decode the same instruction.
  rcases Machine.cycle_cases (engine t') limits m with
    ⟨hf, hc⟩ | ⟨callers, f, cause, hf, hd, hc⟩ | ⟨callers, f, i, hf, hd, hc⟩
  · rw [hc]
    have hbare : (project view owner m).continuation.frames = .empty := by
      show m.continuation.frames.map Frame.bare = .empty
      rw [hf]
      rfl
    exact ⟨hm, Machine.cycle_of_empty hbare⟩
  · rw [hc]
    have hbare : (project view owner m).continuation.frames =
        (callers.map Frame.bare).push f.bare := by
      show m.continuation.frames.map Frame.bare = _
      rw [hf]
      rfl
    refine ⟨hm, ?_⟩
    rw [Machine.cycle_of_malformed (f := f.bare) hbare hd]
    simp only [Machine.traced, project, Continuation.bare_trace]
    rfl
  · rw [hc]
    have hbare : (project view owner m).continuation.frames =
        (callers.map Frame.bare).push f.bare := by
      show m.continuation.frames.map Frame.bare = _
      rw [hf]
      rfl
    have hadvanced : Owned owner size (m.advance i.next) := hm.modifyTop fun _ => rfl
    obtain ⟨howned, heq⟩ := perform_project h limits i.opcode hadvanced
    rw [Machine.cycle_of_decoded (f := f.bare) hbare hd, project_advance, heq, settle_project]
    refine ⟨?_, rfl⟩
    rw [Machine.settle_snd]
    exact howned

/-- **Runs of the two engines** are the same in the projection, for every fuel. -/
theorem run_project (h : SameVerbs view t t') (limits : Limits) (fuel : Nat)
    {m : Machine (World σ)} (hm : Owned owner size m) :
    (∀ r m', Machine.run (engine t') limits fuel m = some (r, m') → Owned owner size m') ∧
      Machine.run (Transient.engine t) limits fuel (project view owner m) =
        (Machine.run (engine t') limits fuel m).map fun (r, m') => (r, project view owner m') := by
  induction fuel generalizing m with
  | zero =>
      refine ⟨?_, rfl⟩
      intro r m' hrun
      cases hrun
  | succ fuel ih =>
      obtain ⟨howned, hcycle⟩ := cycle_project h limits hm
      rcases hc : Machine.cycle (engine t') limits m with ⟨_ | halt | fault, m₁⟩
      · rw [hc] at howned hcycle
        simp only [Machine.run, hc, hcycle]
        exact ih howned
      · rw [hc] at howned hcycle
        simp only [Machine.run, hc, hcycle]
        refine ⟨?_, rfl⟩
        intro r m' hrun
        cases hrun
        exact howned
      · rw [hc] at howned hcycle
        simp only [Machine.run, hc, hcycle]
        refine ⟨?_, rfl⟩
        intro r m' hrun
        cases hrun
        exact howned

theorem SameVerbs.value_of_invoke (h : SameVerbs view t t') {n : VerbId} {keeps : Bool}
    {m m' : Machine (World σ)} {flow : Flow} (hinvoke : invoke t' n keeps m = (.ok flow, m')) :
    ∃ v, flow = .value v := by
  rcases h.get n with ⟨v, v', hv, hv', hmirror⟩ | ⟨cause, hv, hv'⟩
  · simp only [invoke, hv'] at hinvoke
    have hflow := (hmirror keeps m).1
    rw [hinvoke] at hflow
    cases hr : (v.handler ⟨m.continuation.operands, view m.rest.services⟩).1 with
    | error fault =>
        rw [hr] at hflow
        cases hflow
    | ok w =>
        rw [hr] at hflow
        cases hflow
        exact ⟨w, rfl⟩
  · simp only [invoke, hv'] at hinvoke
    cases hinvoke

/-- A run whose verbs are those of the other engine neither suspends nor restarts. -/
theorem completed_of_run (h : SameVerbs view t t') {fuel : Nat} {m m' : Machine (World σ)}
    {halt : Halt} (hrun : Machine.run (engine t') limits fuel m = some (.ok halt, m')) :
    ∃ v, halt = .completed v := by
  obtain ⟨seen, m₁, -, hstop, -⟩ := Machine.run_eq_some hrun
  cases hstop with
  | halted hc =>
      rcases Machine.cycle_cases (engine t') limits m₁ with
        ⟨-, hc'⟩ | ⟨_, _, _, -, -, hc'⟩ | ⟨callers, f, i, -, -, hc'⟩
      · rw [hc'] at hc
        cases hc
        exact ⟨_, rfl⟩
      · rw [hc'] at hc
        cases hc
      · rw [hc', Machine.settle_eq_halted] at hc
        rcases Machine.perform_eq_halt hc with ⟨-, hv⟩ | ⟨keeps, n, -, hcall⟩
        · exact hv
        · rcases hcall with ⟨-, hinvoke⟩ | ⟨-, hinvoke⟩
          · obtain ⟨v, hv⟩ := h.value_of_invoke hinvoke
            cases hv
          · obtain ⟨v, hv⟩ := h.value_of_invoke hinvoke
            cases hv

end Actions
end Resumable
end CogMachine
