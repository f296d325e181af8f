import CogMachine.Machine.SystemVerbs
import CogMachine.Proofs.Simulation

/-!
# Running above other frames

A call runs above the frames of its callers and above their operands. Seen alone it is a run of its
own, from a single frame and without operands. This module compares the two states.

- `Stack.atop` puts one stack on another, and `Below.lift` a whole machine on what lies below it. The
  heights that frames noted grow by the number of operands below.
- `Grounded` says of the run seen alone that its outermost frame noted no operands, so that nothing
  that was there before the call is ever above the height of a frame.
- `Below.simulation` is the simulation of the run seen alone by the call above its callers. What
  succeeds alone succeeds above, unless there are too many frames.
- `Below.lawful`: the primitive actions carry over, and so do `Quiet` verbs (`Quiet.carries`).
-/

namespace CogMachine

/-! ## Stacks on stacks -/

namespace Stack

variable {α : Type}

/-- **One stack on another.** -/
def atop (s base : Stack α) : Stack α :=
  ⟨s.items ++ base.items, s.height + base.height, by simp [s.height_eq, base.height_eq]⟩

@[simp] theorem empty_atop (base : Stack α) : empty.atop base = base := ext rfl

@[simp] theorem push_atop (s base : Stack α) (a : α) :
    (s.push a).atop base = (s.atop base).push a := ext rfl

@[simp] theorem height_atop (s base : Stack α) :
    (s.atop base).height = s.height + base.height := rfl

/-- The top of a stack on another is its own, if it has one. -/
theorem top?_atop {s : Stack α} (base : Stack α) (h : 0 < s.height) :
    (s.atop base).top? = s.top? := by
  rcases s.eq_empty_or_push with rfl | ⟨t, a, rfl⟩
  · exact absurd h (Nat.lt_irrefl 0)
  · rw [push_atop]
    rfl

theorem truncate_atop (s base : Stack α) (n : Nat) :
    (s.atop base).truncate (n + base.height) = (s.truncate n).atop base := by
  apply ext
  show (s.items ++ base.items).drop (s.height + base.height - (n + base.height)) =
    s.items.drop (s.height - n) ++ base.items
  rw [Nat.add_sub_add_right, List.drop_append_of_le_length]
  rw [s.height_eq]
  exact Nat.sub_le _ _

theorem truncate_zero (s : Stack α) : s.truncate 0 = empty := by
  apply ext
  show s.items.drop (s.height - 0) = []
  rw [s.height_eq, Nat.sub_zero, List.drop_length]

end Stack

/-! ## Continuations above others -/

/-- The frame above `n` further operands. -/
def Frame.raise (n : Nat) (f : Frame) : Frame := { f with height := f.height + n }

namespace Continuation

/-- **A continuation above** callers and their operands. -/
def atop (c : Continuation) (callers : Stack Frame) (operands : Stack Value) : Continuation :=
  ⟨(c.frames.map (Frame.raise operands.height)).atop callers, c.operands.atop operands⟩

variable {callers : Stack Frame} {operands : Stack Value} {c c' : Continuation}

theorem atop_frames {inner : Stack Frame} {f : Frame} (h : c.frames = inner.push f) :
    (c.atop callers operands).frames =
      ((inner.map (Frame.raise operands.height)).atop callers).push (f.raise operands.height) := by
  rw [atop, h, Stack.map_push, Stack.push_atop]

theorem atop_top? {f : Frame} (h : c.top? = some f) :
    (c.atop callers operands).top? = some (f.raise operands.height) := by
  rcases c.frames.eq_empty_or_push with hf | ⟨inner, g, hf⟩
  · rw [top?, hf] at h
    cases h
  · rw [top?, hf] at h
    cases h
    rw [top?, atop_frames hf]
    rfl

/-- Changing the innermost frame is the same above others, if the change does not see the height. -/
theorem atop_modifyTop {g : Frame → Frame} (h : c.frames ≠ .empty)
    (hg : ∀ n f, g (Frame.raise n f) = (g f).raise n) :
    (c.modifyTop g).atop callers operands = (c.atop callers operands).modifyTop g := by
  rcases c.frames.eq_empty_or_push with hf | ⟨inner, f, hf⟩
  · exact absurd hf h
  · simp only [modifyTop, atop, hf, Stack.modifyTop_push, Stack.map_push, Stack.push_atop, hg]

/-- A frame that is entered above others notes the operands below it too. -/
theorem atop_pushFrame (f : Frame) :
    (c.pushFrame f).atop callers operands =
      (c.atop callers operands).pushFrame (f.raise operands.height) := by
  simp only [pushFrame, atop, Stack.map_push, Stack.push_atop, Stack.height_atop]
  rfl

/-- What a frame returns does not depend on the operands below it. -/
theorem resultOf_atop (s : Stack Value) (f : Frame) :
    resultOf (s.atop operands) (f.raise operands.height) = resultOf s f := by
  have hreturned : (f.raise operands.height).returned = f.returned := rfl
  have hheight : (f.raise operands.height).height = f.height + operands.height := rfl
  cases hf : f.returned with
  | some v => simp only [resultOf, hreturned, hf]
  | none =>
      simp only [resultOf, hreturned, hheight, hf, Stack.height_atop, Nat.add_lt_add_iff_right]
      by_cases h : f.height < s.height
      · rw [if_pos h, if_pos h, Stack.top?_atop operands (by omega)]
      · rw [if_neg h, if_neg h]

theorem receive_raise (n : Nat) (f caller : Frame) (v : Value) :
    receive (f.raise n) v (caller.raise n) = (receive f v caller).raise n := by
  show (if f.savesResult then _ else _) = _
  unfold receive
  split <;> rfl

theorem deliver_atop (n : Nat) (f : Frame) (v : Value) (s base : Stack Value) :
    deliver (f.raise n) v (s.atop base) = (deliver f v s).atop base := by
  show (if f.pushesResult then _ else _) = _
  unfold deliver
  split
  · rw [Stack.push_atop]
  · rfl

/-- Returning to a frame of the call is the same above others. -/
theorem retire_atop (h : c.retire = (none, c')) :
    (c.atop callers operands).retire = (none, c'.atop callers operands) := by
  obtain ⟨rest, caller, f, hf⟩ := frames_of_retire h
  have hatop : (c.atop callers operands).frames =
      (((rest.map (Frame.raise operands.height)).atop callers).push
        (caller.raise operands.height)).push (f.raise operands.height) := by
    rw [atop_frames hf, Stack.map_push, Stack.push_atop]
  rw [retire_push_push hf] at h
  cases h
  rw [retire_push_push hatop]
  show (none, Continuation.mk (Stack.push _ (receive _ (resultOf (c.operands.atop operands) _) _))
    (deliver _ (resultOf (c.operands.atop operands) _)
      ((c.operands.atop operands).truncate (f.height + operands.height)))) = _
  rw [resultOf_atop, Stack.truncate_atop]
  rw [receive_raise, deliver_atop, atop, Stack.map_push, Stack.push_atop]

/-- **Returning from the call.** The last frame of the call returns to its caller and leaves the
operands that were there, with its result on top if its flags say so. -/
theorem retire_atop_last {rest : Stack Frame} {caller f : Frame}
    (h : c.frames = Stack.empty.push f) (hf : f.height = 0) (hcallers : callers = rest.push caller) :
    (c.atop callers operands).retire = (none, ⟨rest.push (receive f (resultOf c.operands f) caller),
      deliver f (resultOf c.operands f) operands⟩) := by
  have hatop : (c.atop callers operands).frames =
      (rest.push caller).push (f.raise operands.height) := by
    rw [atop_frames h, Stack.map_empty, Stack.empty_atop, hcallers]
  rw [retire_push_push hatop]
  show (none, Continuation.mk (Stack.push _ (receive _ (resultOf (c.operands.atop operands) _) _))
    (deliver _ (resultOf (c.operands.atop operands) _)
      ((c.operands.atop operands).truncate (f.height + operands.height)))) = _
  rw [resultOf_atop, Stack.truncate_atop, hf, Stack.truncate_zero, Stack.empty_atop]
  rfl

end Continuation

/-! ## Runs seen alone -/

/-- **Grounded frames.** The outermost frame noted no operands. -/
def Grounded (frames : Stack Frame) : Prop := frames.items.getLast?.map Frame.height = some 0

namespace Grounded

variable {frames rest : Stack Frame} {f g : Frame}

theorem exists_push (h : Grounded frames) : ∃ inner f, frames = Stack.push inner f := by
  rcases frames.eq_empty_or_push with rfl | hpush
  · cases h
  · exact hpush

theorem ne_empty (h : Grounded frames) : frames ≠ .empty := by
  rintro rfl
  cases h

theorem of_last (h : Grounded (Stack.empty.push f)) : f.height = 0 := Option.some.inj h

theorem push (h : Grounded frames) (f : Frame) : Grounded (frames.push f) := by
  obtain ⟨inner, g, rfl⟩ := h.exists_push
  exact h

theorem pop (h : Grounded ((rest.push f).push g)) : Grounded (rest.push f) := h

/-- The innermost frame may change, but for the height it noted. -/
theorem replace (h : Grounded (rest.push f)) (hg : g.height = f.height) :
    Grounded (rest.push g) := by
  rcases rest.eq_empty_or_push with rfl | ⟨inner, k, rfl⟩
  · show some g.height = some 0
    rw [hg]
    exact h
  · exact h

theorem modifyTop (h : Grounded frames) {k : Frame → Frame} (hk : ∀ f, (k f).height = f.height) :
    Grounded (frames.modifyTop k) := by
  obtain ⟨inner, f, rfl⟩ := h.exists_push
  exact h.replace (hk f)

end Grounded

namespace Resumable

variable {σ : Type}

/-- **What lies below** a call: the callers, their operands, and the services of their run. -/
structure Below (σ : Type) where
  callers : Stack Frame
  operands : Stack Value
  services : σ

/-- **Lifting** a run seen alone onto what lies below it. -/
def Below.lift (g : Below σ) (m : Machine (World σ)) : Machine (World σ) :=
  ⟨m.continuation.atop g.callers g.operands, ⟨m.rest.memories, g.services⟩⟩

def tooDeep (limits : Limits) : Fault := .ofCause (.callStackOverflow limits.callDepth)

/-- **The call above its callers** simulates its run alone. A fault of the run alone says nothing about
the call, and the call may find too many frames. -/
def Below.simulation (g : Below σ) (limits : Limits) : Simulation (World σ) (World σ) where
  invariant m := Grounded m.continuation.frames
  state := g.lift
  lost _ := True
  excess f := f = tooDeep limits

section Actions

variable {g : Below σ} {limits : Limits} {α β : Type}

theorem carries_of_ok {ρ : α → β} {a : Action (Machine (World σ)) α}
    {a' : Action (Machine (World σ)) β}
    (h : ∀ s x t, Grounded s.continuation.frames → a s = (.ok x, t) →
      Grounded t.continuation.frames ∧ a' (g.lift s) = (.ok (ρ x), g.lift t)) :
    (g.simulation limits).Carries ρ a a' := by
  intro s hs
  rcases ha : a s with ⟨fault | x, t⟩
  · exact .inr (.inl ⟨fault, t, rfl, trivial⟩)
  · exact .inl (h s x t hs ha)

/-! ## Actions that carry over -/

theorem carries_pop : (g.simulation limits).Carries id Machine.pop Machine.pop := by
  refine carries_of_ok fun s x t hs h => ?_
  rcases s.continuation.operands.eq_empty_or_push with ho | ⟨below, v, ho⟩
  · simp only [Machine.pop, ho] at h
    cases h
  · simp only [Machine.pop, ho, Stack.pop_push] at h
    cases h
    refine ⟨hs, ?_⟩
    simp only [Machine.pop, Below.lift, Continuation.atop, ho, Stack.push_atop, Stack.pop_push]
    rfl

theorem carries_push (v : Value) :
    (g.simulation limits).Carries id (Machine.push v) (Machine.push v) := by
  refine carries_of_ok fun s x t hs h => ?_
  cases h
  refine ⟨hs, ?_⟩
  simp only [Machine.push, Below.lift, Continuation.atop, Stack.push_atop]

theorem carries_dup {verbs : VerbTable (Handler σ)} (limits₀ : Limits) :
    (g.simulation limits).Carries id (Machine.perform (engine verbs) limits₀ .dup)
      (Machine.perform (engine verbs) limits .dup) := by
  refine Simulation.Carries.get_bind fun m _ => ?_
  rcases m.continuation.operands.eq_empty_or_push with ho | ⟨below, w, ho⟩
  · refine carries_of_ok fun s x t _ h => ?_
    rw [ho] at h
    cases h
  · have hpeek : ((g.simulation limits).state m).continuation.operands.peek =
        m.continuation.operands.peek := by
      show (m.continuation.operands.atop g.operands).peek = _
      rw [ho, Stack.push_atop]
      rfl
    rw [hpeek]
    exact (Simulation.Carries.lift _).bind fun v => (carries_push v).bind fun _ => .pure id _

/-- The innermost frame above the callers is that of the call, raised. -/
theorem lift_top? {s : Machine (World σ)} (hs : Grounded s.continuation.frames) :
    ∃ f, s.continuation.top? = some f ∧
      (g.lift s).continuation.top? = some (f.raise g.operands.height) := by
  obtain ⟨inner, f, hf⟩ := hs.exists_push
  have htop : s.continuation.top? = some f := Machine.top?_push hf
  exact ⟨f, htop, Continuation.atop_top? htop⟩

theorem carries_top : (g.simulation limits).Carries (Frame.raise g.operands.height)
    Machine.top Machine.top := by
  refine carries_of_ok fun s x t hs h => ?_
  obtain ⟨f, htop, hatop⟩ := lift_top? (g := g) hs
  simp only [Machine.top, htop] at h
  cases h
  refine ⟨hs, ?_⟩
  simp only [Machine.top, hatop]

/-- Changes of the innermost frame carry over if they neither see nor change its height. -/
theorem carries_modifyTop {k : Frame → Frame} (hk : ∀ f, (k f).height = f.height)
    (hraise : ∀ n f, k (Frame.raise n f) = (k f).raise n) {a : Action (Machine (World σ)) Unit}
    (ha : ∀ m, a m = (.ok (), { m with continuation := m.continuation.modifyTop k })) :
    (g.simulation limits).Carries id a a := by
  refine carries_of_ok fun s x t hs h => ?_
  rw [ha] at h
  cases h
  refine ⟨hs.modifyTop hk, ?_⟩
  rw [ha]
  show (_, Machine.mk _ _) = (_, Machine.mk _ _)
  rw [Continuation.atop_modifyTop hs.ne_empty hraise]
  rfl

theorem carries_jump (target : Nat) :
    (g.simulation limits).Carries id (Machine.jump target) (Machine.jump target) :=
  carries_modifyTop (k := fun f => { f with counter := target }) (fun _ => rfl) (fun _ _ => rfl)
    (fun _ => rfl)

variable {verbs : VerbTable (Handler σ)}

theorem carries_load (address : Int) :
    (g.simulation limits).Carries id (Machine.load (engine verbs) address)
      (Machine.load (engine verbs) address) := by
  unfold Machine.load
  refine Simulation.Carries.get_bind fun m _ => carries_top.bind fun f => ?_
  -- the memories and the memory of the frame are the same above
  show (g.simulation limits).Carries id _
    (Machine.lift ((engine verbs).load m.rest f address) >>= Machine.push)
  exact (Simulation.Carries.lift _).bind fun v => carries_push v

theorem carries_store (address : Int) (v : Value) :
    (g.simulation limits).Carries id (Machine.store (engine verbs) address v)
      (Machine.store (engine verbs) address v) := by
  unfold Machine.store
  refine carries_top.bind fun f => carries_of_ok fun s x t hs h => ?_
  have hmemory : (f.raise g.operands.height).memory = f.memory := rfl
  cases hl : s.rest.memories.locate f.memory address with
  | error cause =>
      simp only [Machine.inRest, engine, hl] at h
      cases h
  | ok found =>
      simp only [Machine.inRest, engine, hl] at h
      cases h
      refine ⟨hs, ?_⟩
      simp only [Machine.inRest, engine, Below.lift, hmemory, hl]

/-- A nested call carries over, unless it is one too many above the callers. -/
theorem carries_link (limits₀ : Limits) (target : Nat) :
    (g.simulation limits).Carries id (Machine.branch limits₀ target .link)
      (Machine.branch limits target .link) := by
  intro s hs
  obtain ⟨f, htop, hatop⟩ := lift_top? (g := g) hs
  rw [Machine.branch_link limits₀ target htop]
  show _ ∨ _ ∨ ∃ f t, Machine.branch limits target .link (g.lift s) = _ ∧ _
  rw [Machine.branch_link limits target hatop]
  by_cases hfresh : limits₀.callDepth ≤ s.continuation.depth
  · rw [if_pos hfresh]
    exact .inr (.inl ⟨_, _, rfl, trivial⟩)
  · rw [if_neg hfresh]
    by_cases hdeep : limits.callDepth ≤ (g.lift s).continuation.depth
    · exact .inr (.inr ⟨_, _, if_pos hdeep, rfl⟩)
    · refine .inl ⟨hs.push _, ?_⟩
      show Machine.branch limits target .link (g.lift s) = (_, Machine.mk (Continuation.atop _ _ _) _)
      rw [Machine.branch_link limits target hatop, if_neg hdeep, Continuation.atop_pushFrame]
      rfl

/-- **The primitive actions carry over.** -/
theorem Below.lawful (g : Below σ) (verbs : VerbTable (Handler σ)) (limits₀ limits : Limits) :
    (g.simulation limits).Lawful (engine verbs) (engine verbs) limits₀ limits where
  pop := carries_pop
  push := carries_push
  dup := carries_dup limits₀
  jump := carries_jump
  link := carries_link limits₀
  load := carries_load
  store := carries_store

/-! ## Quiet verbs -/

def withFlags (flags : Bool × Bool) (f : Frame) : Frame :=
  { f with savesResult := flags.1, pushesResult := flags.2 }

/-- **Flag setters.** All they do is set the flags of the calling frame. What they set and answer may
depend on the flags. -/
def SetsFlags (handler : Handler σ) : Prop :=
  ∀ keeps, ∃ act : Bool → Bool → (Bool × Bool) × Value,
    ∀ (m : Machine (World σ)) (callers : Stack Frame) (f : Frame),
      m.continuation.frames = callers.push f →
      handler keeps m = (.ok (.value (act f.savesResult f.pushesResult).2),
        { m with continuation :=
          m.continuation.modifyTop (withFlags (act f.savesResult f.pushesResult).1) })

/-- **Quiet verbs.** Those that keep to the calling frame, but for an operand they pop. -/
inductive Quiet : Handler σ → Prop where
  | getSender : Quiet getSender
  | getSource : Quiet getSource
  | getParam : Quiet getParam
  | setReturn : Quiet setReturn
  | setsFlags {handler : Handler σ} : SetsFlags handler → Quiet handler

theorem carries_callingFrame : (g.simulation limits).Carries (Frame.raise g.operands.height)
    callingFrame callingFrame := by
  refine carries_of_ok fun s x t hs h => ?_
  obtain ⟨f, htop, hatop⟩ := lift_top? (g := g) hs
  simp only [callingFrame, htop] at h
  cases h
  refine ⟨hs, ?_⟩
  simp only [callingFrame, hatop]

theorem carries_modifyCaller {k : Frame → Frame} (hk : ∀ f, (k f).height = f.height)
    (hraise : ∀ n f, k (Frame.raise n f) = (k f).raise n) :
    (g.simulation limits).Carries id (modifyCaller k) (modifyCaller k) := by
  unfold modifyCaller
  exact carries_callingFrame.bind fun _ => carries_modifyTop hk hraise fun _ => rfl

theorem carries_getParam (keeps : Bool) :
    (g.simulation limits).Carries id (getParam keeps) (getParam keeps) := by
  unfold getParam
  refine Simulation.Carries.bind carries_pop fun v => Simulation.Carries.get_bind fun m hm => ?_
  obtain ⟨f, htop, hatop⟩ := lift_top? (g := g) hm
  show (g.simulation limits).Carries id (if v.asInt < 0 then _ else _)
    (if v.asInt < 0 then _ else
      pure (Flow.value (((g.lift m).continuation.top?.map _).getD _)))
  rw [htop, hatop]
  by_cases hneg : v.asInt < 0
  · rw [if_pos hneg, if_pos hneg]
    exact .pure id _
  · rw [if_neg hneg, if_neg hneg]
    exact .pure id _

theorem SetsFlags.carries {handler : Handler σ} (h : SetsFlags handler) (keeps : Bool) :
    (g.simulation limits).Carries id (handler keeps) (handler keeps) := by
  refine carries_of_ok fun s x t hs hst => ?_
  obtain ⟨act, hact⟩ := h keeps
  obtain ⟨inner, f, hf⟩ := hs.exists_push
  rw [hact s inner f hf] at hst
  cases hst
  refine ⟨hs.modifyTop fun _ => rfl, ?_⟩
  -- the flags that the setter sees above are those of the call
  rw [hact (g.lift s) _ _ (Continuation.atop_frames hf)]
  show (_, Machine.mk _ _) = (_, Machine.mk _ _)
  rw [Continuation.atop_modifyTop hs.ne_empty fun _ _ => rfl]
  rfl

/-- **Quiet verbs carry over.** -/
theorem Quiet.carries {handler : Handler σ} (h : Quiet handler) (keeps : Bool) :
    (g.simulation limits).Carries id (handler keeps) (handler keeps) := by
  cases h with
  | getSender => exact carries_callingFrame.bind fun f => .pure id _
  | getSource => exact carries_callingFrame.bind fun f => .pure id _
  | getParam => exact carries_getParam keeps
  | setReturn =>
      refine Simulation.Carries.bind carries_pop fun v => ?_
      have hset : (g.simulation limits).Carries id (modifyCaller fun f => f.setResult v)
          (modifyCaller fun f => f.setResult v) :=
        carries_modifyCaller (fun _ => rfl) fun _ _ => rfl
      exact hset.bind fun _ => .pure id _
  | setsFlags h => exact h.carries keeps

/-- Whether an instruction that calls a verb calls a quiet one. -/
def CallsQuietly (verbs : VerbTable (Handler σ)) (o : Opcode) : Prop :=
  ∀ keeps id verb, o = .call keeps id → verbs.get id = .ok verb → Quiet verb.handler

theorem CallsQuietly.carries {o : Opcode} (h : CallsQuietly verbs o) {keeps : Bool} {n : VerbId}
    (ho : o = .call keeps n) :
    (g.simulation limits).Carries id (invoke verbs n keeps) (invoke verbs n keeps) := by
  intro s hs
  cases hv : verbs.get n with
  | error cause =>
      refine .inr (.inl ⟨.ofCause cause, s, ?_, trivial⟩)
      simp only [invoke, hv]
  | ok verb =>
      have hquiet := (h keeps n verb ho hv).carries keeps s hs
      simpa only [invoke, hv] using hquiet

end Actions
end Resumable
end CogMachine
