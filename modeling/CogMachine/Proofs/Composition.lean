import CogMachine.Proofs.Above
import CogMachine.Proofs.Execution

/-!
# A call is a composed run

What a call does is told by the run of its frame alone: the memories that this run leaves, and the
value that it completes with, which the flags of the frame send to the caller.

- `Enters` has the two ways into a call: a nested call, and a verb that enters a frame and asks for a
  restart.
- `Leads.lift`: as long as the run of the frame alone goes on, the call does the same above its
  callers, or runs into a limit.
- `cycle_return`: where the run of the frame alone completes, the call returns.
- `lift_returns` is the run up to its return, and `call_composes` the whole call.
-/

namespace CogMachine.Resumable

variable {σ : Type} {verbs : VerbTable (Handler σ)} {limits limits₀ : Limits} {g : Below σ}

/-- **Running into a limit:** too many frames, or too many operands. -/
def Overflows (verbs : VerbTable (Handler σ)) (limits : Limits) (m : Machine (World σ)) : Prop :=
  ∃ fault m', Machine.cycle (engine verbs) limits m = (.faulted fault, m') ∧
    (fault.cause = .callStackOverflow limits.callDepth ∨
      fault.cause = .stackOverflow limits.stackDepth)

/-- Whether the next instruction, if it calls a verb, calls a quiet one. -/
def QuietAt (verbs : VerbTable (Handler σ)) (m : Machine (World σ)) : Prop :=
  ∀ o, m.opcode? = some o → CallsQuietly verbs o

/-! ## Cycles above callers -/

/-- An instruction that does not stop the run of the frame alone does the same above its callers,
unless there are too many frames. -/
theorem perform_lift {o : Opcode} {s t : Machine (World σ)} (hquiet : CallsQuietly verbs o)
    (hs : Grounded s.continuation.frames)
    (h : Machine.perform (engine verbs) limits₀ o s = (.ok none, t)) :
    (Grounded t.continuation.frames ∧
      Machine.perform (engine verbs) limits o (g.lift s) = (.ok none, g.lift t)) ∨
    ∃ t', Machine.perform (engine verbs) limits o (g.lift s) = (.error (tooDeep limits), t') := by
  by_cases ho : o = .ret
  · -- a return may end the run of the frame alone, and that does not carry over
    subst ho
    rcases hr : s.continuation.retire with ⟨_ | v, c⟩
    · simp only [Machine.perform, Machine.retire, hr] at h
      cases h
      refine .inl ⟨?_, ?_⟩
      · obtain ⟨rest, caller, f, hf⟩ := Continuation.frames_of_retire hr
        rw [Continuation.retire_push_push hf] at hr
        cases hr
        rw [hf] at hs
        exact hs.pop.replace (Continuation.receive_height ..)
      · simp only [Machine.perform, Machine.retire, Below.lift, Continuation.retire_atop hr]
        rfl
    · simp only [Machine.perform, Machine.retire, hr] at h
      cases h
  · have hperform := (g.lawful verbs limits₀ limits).perform (fun _ _ => rfl)
      (fun keeps n hcall => hquiet.carries hcall) (fun hret => absurd hret ho) s hs
    rw [h] at hperform
    rcases hperform with hsame | ⟨fault, t', hfault, -⟩ | ⟨fault, t', hfault, rfl⟩
    · exact .inl hsame
    · cases hfault
    · exact .inr ⟨t', hfault⟩

/-- The next instruction above the callers is that of the call. -/
theorem lift_frames {s : Machine (World σ)} {inner : Stack Frame} {f : Frame}
    (h : s.continuation.frames = inner.push f) :
    (g.lift s).continuation.frames =
      ((inner.map (Frame.raise g.operands.height)).atop g.callers).push
        (f.raise g.operands.height) :=
  Continuation.atop_frames h

theorem lift_advance {s : Machine (World σ)} (hs : Grounded s.continuation.frames) (next : Nat) :
    (g.lift s).advance next = g.lift (s.advance next) := by
  show Machine.mk _ _ = Machine.mk _ _
  rw [Machine.advance, Continuation.atop_modifyTop hs.ne_empty fun _ _ => rfl]
  rfl

/-- What a cycle makes of an instruction above the callers. -/
theorem cycle_lift_of_decoded (verbs : VerbTable (Handler σ)) (limits : Limits) (g : Below σ)
    {s : Machine (World σ)} {inner : Stack Frame} {f : Frame} {i : Instruction} (hs : Grounded s.continuation.frames)
    (hf : s.continuation.frames = inner.push f) (hd : f.script.program.decode f.counter = .ok i) :
    ∃ slot position, Machine.cycle (engine verbs) limits (g.lift s) =
      Machine.settle limits slot position
        (Machine.perform (engine verbs) limits i.opcode (g.lift (s.advance i.next))) := by
  refine ⟨((inner.map (Frame.raise g.operands.height)).atop g.callers).height, f.counter, ?_⟩
  rw [← lift_advance hs]
  exact Machine.cycle_of_decoded (f := f.raise g.operands.height) (lift_frames hf) hd

/-- Settling goes on or runs into the limit of operands. -/
theorem settle_next_or_overflows {slot position : Nat} {s t : Machine (World σ)}
    (h : Machine.cycle (engine verbs) limits s = Machine.settle limits slot position (.ok none, t)) :
    Machine.cycle (engine verbs) limits s = (.next, t) ∨ Overflows verbs limits s := by
  by_cases hfull : limits.stackDepth < t.continuation.operands.height
  · refine .inr ⟨Machine.traced (.ofCause (.stackOverflow limits.stackDepth)) slot position
      t.continuation, t, ?_, .inr (Machine.traced_cause ..)⟩
    rw [h, Machine.settle, if_pos hfull]
  · refine .inl ?_
    rw [h, Machine.settle, if_neg hfull]

/-- **One cycle.** Where the run of the frame alone goes on, so does the call above its callers. -/
theorem cycle_lift (limits : Limits) (g : Below σ) {s t : Machine (World σ)}
    (hs : Grounded s.continuation.frames) (hquiet : QuietAt verbs s)
    (hc : Machine.cycle (engine verbs) limits₀ s = (.next, t)) :
    (Grounded t.continuation.frames ∧
      Machine.cycle (engine verbs) limits (g.lift s) = (.next, g.lift t)) ∨
    Overflows verbs limits (g.lift s) := by
  rcases Machine.cycle_cases (engine verbs) limits₀ s with
    ⟨-, hc'⟩ | ⟨_, _, _, -, -, hc'⟩ | ⟨inner, f, i, hf, hd, hc'⟩
  · rw [hc'] at hc
    cases hc
  · rw [hc'] at hc
    cases hc
  · rw [hc', Machine.settle_eq_next] at hc
    have hadvanced : Grounded (s.advance i.next).continuation.frames := hs.modifyTop fun _ => rfl
    have hcalls := hquiet i.opcode (Machine.opcode?_of_decode hf hd)
    obtain ⟨slot, position, hlift⟩ := cycle_lift_of_decoded verbs limits g hs hf hd
    rcases perform_lift hcalls hadvanced hc.1 with ⟨ht, hok⟩ | ⟨t', hdeep⟩
    · rw [hok] at hlift
      rcases settle_next_or_overflows hlift with hnext | hover
      · exact .inl ⟨ht, hnext⟩
      · exact .inr hover
    · rw [hdeep] at hlift
      exact .inr ⟨_, t', hlift, .inl (Machine.traced_cause ..)⟩

theorem Quiet.value_of_ok {handler : Handler σ} (h : Quiet handler) {keeps : Bool}
    {s t : Machine (World σ)} {flow : Flow} (hs : Grounded s.continuation.frames)
    (hst : handler keeps s = (.ok flow, t)) : ∃ v, flow = .value v := by
  cases h with
  | getSender | getSource =>
      obtain ⟨f, u, -, hf⟩ := Action.bind_eq_ok hst
      cases hf
      exact ⟨_, rfl⟩
  | getParam =>
      obtain ⟨v, u, -, hv⟩ := Action.bind_eq_ok hst
      obtain ⟨m, w, -, hm⟩ := Action.bind_eq_ok hv
      by_cases hneg : v.asInt < 0
      · simp only [if_pos hneg] at hm
        cases hm
        exact ⟨_, rfl⟩
      · simp only [if_neg hneg] at hm
        cases hm
        exact ⟨_, rfl⟩
  | setReturn =>
      obtain ⟨v, u, -, hv⟩ := Action.bind_eq_ok hst
      obtain ⟨x, w, -, hx⟩ := Action.bind_eq_ok hv
      cases hx
      exact ⟨_, rfl⟩
  | setsFlags h =>
      obtain ⟨act, hact⟩ := h keeps
      obtain ⟨inner, f, hf⟩ := hs.exists_push
      rw [hact s inner f hf] at hst
      cases hst
      exact ⟨_, rfl⟩

/-- **A quiet cycle that halts** is a return that completes the run. -/
theorem completed_of_quiet {s t : Machine (World σ)} {halt : Halt}
    (hs : Grounded s.continuation.frames) (hquiet : QuietAt verbs s)
    (hc : Machine.cycle (engine verbs) limits₀ s = (.halted halt, t)) :
    ∃ inner f i v, s.continuation.frames = Stack.push inner f ∧
      f.script.program.decode f.counter = .ok i ∧ i.opcode = .ret ∧ halt = .completed v ∧
      Machine.perform (engine verbs) limits₀ .ret (s.advance i.next) = (.ok (some halt), t) := by
  rcases Machine.cycle_cases (engine verbs) limits₀ s with
    ⟨hf, -⟩ | ⟨_, _, _, -, -, hc'⟩ | ⟨inner, f, i, hf, hd, hc'⟩
  · exact absurd hf hs.ne_empty
  · rw [hc'] at hc
    cases hc
  · rw [hc', Machine.settle_eq_halted] at hc
    rcases Machine.perform_eq_halt hc with ⟨ho, v, hv⟩ | ⟨keeps, id, ho, hcall⟩
    · rw [ho] at hc
      exact ⟨inner, f, i, v, hf, hd, ho, hv, hc⟩
    · -- a verb that halts is not quiet
      have hadvanced : Grounded (s.advance i.next).continuation.frames := hs.modifyTop fun _ => rfl
      obtain ⟨flow, hflow, hinvoke⟩ : ∃ flow, (∀ v, flow ≠ .value v) ∧
          invoke verbs id keeps (s.advance i.next) = (.ok flow, t) := by
        rcases hcall with ⟨-, h⟩ | ⟨-, h⟩
        · exact ⟨_, by simp, h⟩
        · exact ⟨_, by simp, h⟩
      unfold invoke at hinvoke
      cases hv : verbs.get id with
      | error cause =>
          rw [hv] at hinvoke
          cases hinvoke
      | ok verb =>
          rw [hv] at hinvoke
          have hverb := hquiet i.opcode (Machine.opcode?_of_decode hf hd) keeps id verb ho hv
          obtain ⟨v, rfl⟩ := hverb.value_of_ok hadvanced hinvoke
          exact absurd rfl (hflow v)

/-! ## The run of the frame alone, above its callers -/

/-- **Going on.** As long as the quiet run of the frame alone goes on, so does the call above its
callers, unless it runs into a limit. No restart is spent. -/
theorem Leads.lift (limits : Limits) (g : Below σ) {seen : List (Machine (World σ))} {b b' : Nat}
    {s t : Machine (World σ)} (h : Leads verbs limits₀ seen b s b' t)
    (hs : Grounded s.continuation.frames) (hquiet : ∀ x ∈ seen, QuietAt verbs x) :
    ((∀ x ∈ seen ++ [t], Grounded x.continuation.frames) ∧
      ∀ B, Leads verbs limits (seen.map g.lift) B (g.lift s) B (g.lift t)) ∨
    ∃ seen' x, (∀ B, Leads verbs limits seen' B (g.lift s) B x) ∧ Overflows verbs limits x := by
  induction h with
  | refl b m => exact .inl ⟨by simpa using hs, fun B => .refl B _⟩
  | next hc _ ih =>
      simp only [List.mem_cons, forall_eq_or_imp] at hquiet
      rcases cycle_lift limits g hs hquiet.1 hc with ⟨hnext, hgo⟩ | hover
      · rcases ih hnext hquiet.2 with ⟨hgrounded, hall⟩ | ⟨seen', x, hx, hover⟩
        · refine .inl ⟨?_, fun B => .next hgo (hall B)⟩
          simp only [List.cons_append, List.mem_cons, forall_eq_or_imp]
          exact ⟨hs, hgrounded⟩
        · exact .inr ⟨_, x, fun B => .next hgo (hx B), hover⟩
      · exact .inr ⟨[], _, fun B => .refl B _, hover⟩
  | restart hc _ _ =>
      simp only [List.mem_cons, forall_eq_or_imp] at hquiet
      obtain ⟨_, _, _, v, -, -, -, hv, -⟩ := completed_of_quiet hs hquiet.1 hc
      cases hv

/-- A quiet run of a frame that completes does so by a return. -/
theorem Ends.cycle_of_completed {s t : Machine (World σ)} {b : Nat} {v : Value}
    (h : Ends verbs limits₀ s b (.ok (.completed v)) t) (hs : Grounded s.continuation.frames)
    (hquiet : QuietAt verbs s) :
    Machine.cycle (engine verbs) limits₀ s = (.halted (.completed v), t) := by
  generalize hr : (Except.ok (.completed v) : Except Fault Answer) = r at h
  cases h with
  | completed hc =>
      cases hr
      exact hc
  | suspended hc =>
      obtain ⟨_, _, _, w, -, -, -, hw, -⟩ := completed_of_quiet hs hquiet hc
      cases hw
  | faulted hc => cases hr
  | exhausted hc => cases hr

/-! ## The return -/

/-- **The return.** Where the run of the frame alone completes, the call above its callers returns,
unless its result is one operand too many. -/
theorem cycle_return (limits : Limits) (g : Below σ) {s t : Machine (World σ)} {v : Value}
    {rest : Stack Frame} {caller : Frame}
    (hs : Grounded s.continuation.frames) (hquiet : QuietAt verbs s)
    (hc : Machine.cycle (engine verbs) limits₀ s = (.halted (.completed v), t))
    (hg : g.callers = rest.push caller) :
    ∃ f, (g.lift s).continuation.frames = g.callers.push f ∧
      (g.lift s).opcode? = some .ret ∧
      (Machine.cycle (engine verbs) limits (g.lift s) = (.next,
        ⟨⟨rest.push (Continuation.receive f v caller), Continuation.deliver f v g.operands⟩,
          ⟨t.rest.memories, g.services⟩⟩) ∨
        Overflows verbs limits (g.lift s)) := by
  obtain ⟨inner, f, i, w, hf, hd, ho, hw, hp⟩ := completed_of_quiet hs hquiet hc
  have hframes : (s.advance i.next).continuation.frames = inner.push { f with counter := i.next } :=
    Machine.advance_frames i.next hf
  -- the run of the frame alone has no other frame left
  obtain rfl : inner = .empty := by
    rcases inner.eq_empty_or_push with h | ⟨deeper, k, rfl⟩
    · exact h
    · simp only [Machine.perform, Machine.retire, Continuation.retire_push_push hframes] at hp
      cases hp
  simp only [Machine.perform, Machine.retire, Continuation.retire_last hframes] at hp
  cases hp
  rw [hf] at hs
  have hlast : f.height = 0 := hs.of_last
  have hlift : (g.lift s).continuation.frames = g.callers.push (f.raise g.operands.height) := by
    rw [lift_frames hf, Stack.map_empty, Stack.empty_atop]
  refine ⟨f.raise g.operands.height, hlift, ?_, ?_⟩
  · rw [← ho]
    exact Machine.opcode?_of_decode hlift hd
  · obtain ⟨slot, position, hcycle⟩ := cycle_lift_of_decoded verbs limits g (hf ▸ hs) hf hd
    have hretire : (g.lift (s.advance i.next)).continuation.retire = _ :=
      Continuation.retire_atop_last hframes hlast hg
    rw [ho, Machine.perform, Machine.retire, hretire] at hcycle
    exact settle_next_or_overflows hcycle

/-! ## Entering a call -/

/-- **Entering.** The cycle that begins in `m` enters the frame `F` above `caller` and what is below it,
and goes on in the given machine, at the cost of some restarts. -/
inductive Enters (verbs : VerbTable (Handler σ)) (m : Machine (World σ)) (rest : Stack Frame)
    (caller F : Frame) : Nat → Machine (World σ) → Prop where
  /-- A nested call. -/
  | link {f : Frame} {i : Instruction} {target : Nat} :
      m.continuation.frames = rest.push f → f.script.program.decode f.counter = .ok i →
      i.opcode = .branch .link target → caller = { f with counter := i.next } →
      F = f.nested target →
      Enters verbs m rest caller F 0
        ⟨(Continuation.mk (rest.push caller) m.continuation.operands).pushFrame F, m.rest⟩
  /-- A verb that enters a frame and asks for a restart. -/
  | verb {f : Frame} {i : Instruction} {keeps : Bool} {id : VerbId} {verb : Verb (Handler σ)}
      {operands : Stack Value} {w : World σ} :
      m.continuation.frames = rest.push f → f.script.program.decode f.counter = .ok i →
      i.opcode = .call keeps id → caller = { f with counter := i.next } →
      verbs.get id = .ok verb →
      verb.handler keeps (m.advance i.next) =
        (.ok .restart, ⟨(Continuation.mk (rest.push caller) operands).pushFrame F, w⟩) →
      Enters verbs m rest caller F 1
        ⟨(Continuation.mk (rest.push caller) operands).pushFrame F, w⟩

def below (rest : Stack Frame) (caller : Frame) (m : Machine (World σ)) : Below σ :=
  ⟨rest.push caller, m.continuation.operands, m.rest.services⟩

/-- A machine that starts with one frame, seen above what lies below it. -/
theorem Enters.eq_lift {m m₁ : Machine (World σ)} {rest : Stack Frame} {caller F : Frame} {k : Nat}
    (h : Enters verbs m rest caller F k m₁) (services : σ) :
    m₁ = (below rest caller m₁).lift ⟨.ofFrame F, ⟨m₁.rest.memories, services⟩⟩ := by
  have hstart : ∀ (operands : Stack Value) (w : World σ),
      (⟨(Continuation.mk (rest.push caller) operands).pushFrame F, w⟩ : Machine (World σ)) =
        Below.lift ⟨rest.push caller, operands, w.services⟩ ⟨.ofFrame F, ⟨w.memories, services⟩⟩ := by
    intro operands w
    simp [Below.lift, Continuation.atop, Continuation.ofFrame, Continuation.empty,
      Continuation.pushFrame, Frame.raise]
  cases h with
  | link | verb => exact hstart _ _

/-- **The first cycle** of a call. -/
theorem Enters.leads {m m₁ : Machine (World σ)} {rest : Stack Frame} {caller F : Frame} {k : Nat}
    (h : Enters verbs m rest caller F k m₁) (b : Nat) :
    Leads verbs limits [m] (b + k) m b m₁ ∨ Overflows verbs limits m := by
  cases h with
  | @link f i target hf hd ho hcaller hF =>
      subst hcaller hF
      have hadvance := Machine.advance_eq i.next hf
      have htop : (m.advance i.next).continuation.top? = some { f with counter := i.next } :=
        Machine.top?_push (Machine.advance_frames i.next hf)
      have hcycle : Machine.cycle (engine verbs) limits m = _ := Machine.cycle_of_decoded hf hd
      rw [ho, Machine.perform, Action.bind_eq, Machine.branch_link limits target htop] at hcycle
      by_cases hdeep : limits.callDepth ≤ (m.advance i.next).continuation.depth
      · rw [if_pos hdeep] at hcycle
        exact .inr ⟨_, _, hcycle, .inl (Machine.traced_cause ..)⟩
      · rw [if_neg hdeep] at hcycle
        rcases settle_next_or_overflows hcycle with hnext | hover
        · rw [hadvance] at hnext
          exact .inl (.next hnext (.refl _ _))
        · exact .inr hover
  | @verb f i keeps id verb operands w hf hd ho hcaller hv hh =>
      refine .inl (.restart ?_ (.refl _ _))
      rw [Machine.cycle_of_decoded hf hd, Machine.settle_eq_halted, ho, Machine.perform_call]
      simp only [engine, invoke, hv, hh]

def InCall (callers : Stack Frame) (m : Machine (World σ)) : Prop :=
  ∃ inner f, m.continuation.frames = (Stack.push inner f).atop callers

theorem inCall_lift {s : Machine (World σ)} (hs : Grounded s.continuation.frames) :
    InCall g.callers (g.lift s) := by
  obtain ⟨inner, f, hf⟩ := hs.exists_push
  refine ⟨inner.map (Frame.raise g.operands.height), f.raise g.operands.height, ?_⟩
  rw [lift_frames hf, Stack.push_atop]

/-- **Running to the return.** Where a run seen alone completes, calling none but quiet verbs, the run above
its callers returns from their call, unless it runs into a limit. Until then the callers stay below it. -/
theorem lift_returns (limits : Limits) (g : Below σ) {s m' : Machine (World σ)} {rest : Stack Frame}
    {caller : Frame} {fuel b₀ : Nat} {v : Value} (hs : Grounded s.continuation.frames)
    (hrun : passes verbs limits₀ fuel b₀ s = some (.ok (.completed v), m'))
    (hquiet : ∀ x ∈ visited verbs limits₀ fuel b₀ s, QuietAt verbs x)
    (hg : g.callers = rest.push caller) (b : Nat) :
    (∃ seen x, Leads verbs limits seen b (g.lift s) b x ∧ Overflows verbs limits x) ∨
    (∃ seen x f, Leads verbs limits seen b (g.lift s) b x ∧ (∀ y ∈ seen, InCall g.callers y) ∧
      x.continuation.frames = g.callers.push f ∧ x.opcode? = some .ret ∧
      Machine.cycle (engine verbs) limits x = (.next,
        ⟨⟨rest.push (Continuation.receive f v caller), Continuation.deliver f v g.operands⟩,
          ⟨m'.rest.memories, g.services⟩⟩)) := by
  obtain ⟨seen, b₁, t, hl, he, hv⟩ := leads_of_passes hrun
  rw [hv] at hquiet
  have hlast : QuietAt verbs t := hquiet t (by simp)
  rcases hl.lift limits g hs fun x hx => hquiet x (List.mem_append_left _ hx) with
    ⟨hgrounded, hgo⟩ | ⟨seen', x, hx, hover⟩
  · have ht : Grounded t.continuation.frames := hgrounded t (by simp)
    obtain ⟨f, hframes, hret, hreturn | hover⟩ :=
      cycle_return limits g ht hlast (he.cycle_of_completed ht hlast) hg
    · refine .inr ⟨_, _, f, hgo b, ?_, hframes, hret, hreturn⟩
      intro x hx
      obtain ⟨y, hy, rfl⟩ := List.mem_map.mp hx
      exact inCall_lift (hgrounded y (List.mem_append_left _ hy))
    · exact .inl ⟨_, _, hgo b, hover⟩
  · exact .inl ⟨seen', x, hx b, hover⟩

/-- **A call is a composed run.** If the frame `F` alone, without operands and over the same memories,
completes with `v` by a run that calls none but quiet verbs, then the call of `F` returns, unless it
runs into a limit. Until then the callers stay below it. After it the memories are those that the run
left, the operands are those at the call, with `v` on top if the flags of the frame say so at the
return, and the caller has `v` in its return register if they say so; nothing else below changed. -/
theorem call_composes {m m₁ m' : Machine (World σ)} {rest : Stack Frame} {caller F : Frame}
    {k fuel : Nat} {services : σ} {v : Value} (henter : Enters verbs m rest caller F k m₁)
    (hrun : execute verbs limits₀ fuel ⟨.ofFrame F, ⟨m₁.rest.memories, services⟩⟩ =
      some (.ok (.completed v), m'))
    (hquiet : ∀ s ∈ visited verbs limits₀ fuel limits₀.restarts
      ⟨.ofFrame F, ⟨m₁.rest.memories, services⟩⟩, QuietAt verbs s) (b : Nat) :
    (∃ seen b' x, Leads verbs limits seen (b + k) m b' x ∧ Overflows verbs limits x) ∨
    (∃ seen x f, Leads verbs limits (m :: seen) (b + k) m b x ∧
      (∀ s ∈ seen, InCall (rest.push caller) s) ∧
      x.continuation.frames = (rest.push caller).push f ∧ x.opcode? = some .ret ∧
      Machine.cycle (engine verbs) limits x = (.next,
        ⟨⟨rest.push (Continuation.receive f v caller),
          Continuation.deliver f v m₁.continuation.operands⟩,
          ⟨m'.rest.memories, m₁.rest.services⟩⟩)) := by
  have hstart : Grounded (Continuation.ofFrame F).frames := rfl
  rw [execute, if_neg (by simp [Continuation.isFinished, Continuation.ofFrame,
    Continuation.pushFrame])] at hrun
  -- The cycle that enters, and then the run of the frame above its callers; each may find a limit instead.
  rcases henter.leads b with hfirst | hover
  · have hgo := lift_returns limits (below rest caller m₁) hstart hrun hquiet rfl b
    rw [← henter.eq_lift services] at hgo
    rcases hgo with ⟨seen, x, hx, hover⟩ | ⟨seen, x, f, hx, hcalls, hframes, hret, hreturn⟩
    · exact .inl ⟨_, b, x, hfirst.trans hx, hover⟩
    · exact .inr ⟨seen, x, f, hfirst.trans hx, hcalls, hframes, hret, hreturn⟩
  · exact .inl ⟨[], b + k, m, .refl _ _, hover⟩

def keepResult : Handler Unit := fun _ => do
  modifyCaller fun f => { f with savesResult := true, pushesResult := true }
  return .value .void

theorem keepResult_setsFlags : SetsFlags keepResult := by
  intro keeps
  refine ⟨fun _ _ => ((true, true), .void), ?_⟩
  intro m callers f hf
  have hcaller : callingFrame m = (.ok f, m) := by
    simp only [callingFrame, Machine.top?_push hf]
  have hmodify : modifyCaller (withFlags (true, true)) m = (.ok (),
      { m with continuation := m.continuation.modifyTop (withFlags (true, true)) }) :=
    Action.bind_ok _ hcaller
  exact Action.bind_ok _ hmodify

/-- The table whose only verb is `keepResult`. -/
def keepOnly : VerbTable (Handler Unit) := VerbTable.empty.add "keepresult" keepResult

def keeping : Script := .ofProgram "keeping" (.ofBytes
  ([.branch .link 6, .ret, .call false ⟨0⟩, .push (.int 7), .ret].flatMap Opcode.encode))

/-- A run that is about to call, above an operand. -/
def keepingStart : Machine (World Unit) :=
  ⟨⟨Stack.empty.push (.enter keeping 0), Stack.empty.push (.int 1)⟩, ⟨.empty, ()⟩⟩

theorem call_composes_keeping :
    (∃ seen b' x, Leads keepOnly .standard seen 3 keepingStart b' x ∧
      Overflows keepOnly .standard x) ∨
    (∃ seen x f, Leads keepOnly .standard (keepingStart :: seen) 3 keepingStart 3 x ∧
      (∀ s ∈ seen, InCall (Stack.empty.push (.enter keeping 5)) s) ∧
      x.continuation.frames = (Stack.empty.push (.enter keeping 5)).push f ∧
      x.opcode? = some .ret ∧
      Machine.cycle (engine keepOnly) .standard x = (.next,
        ⟨⟨Stack.empty.push (Continuation.receive f (.int 7) (.enter keeping 5)),
          Continuation.deliver f (.int 7) (Stack.empty.push (.int 1))⟩, ⟨.empty, ()⟩⟩)) := by
  have henter : Enters keepOnly keepingStart .empty (.enter keeping 5) (.enter keeping 6) 0
      ⟨(Continuation.mk (Stack.empty.push (.enter keeping 5)) (Stack.empty.push (.int 1))).pushFrame
        (.enter keeping 6), ⟨.empty, ()⟩⟩ := .link rfl rfl rfl rfl rfl
  have hrun : execute keepOnly .standard 3 ⟨.ofFrame (.enter keeping 6), ⟨.empty, ()⟩⟩ =
      some (.ok (.completed (.int 7)),
        ⟨⟨.empty, Stack.empty.push (.int 7)⟩, ⟨.empty, ()⟩⟩) := rfl
  refine call_composes henter hrun ?_ 3
  intro s _ o _ keeps id verb _ hverb
  obtain rfl : verb = ⟨"keepresult", keepResult⟩ := List.mem_singleton.mp (VerbTable.mem_of_get hverb)
  exact .setsFlags keepResult_setsFlags

end CogMachine.Resumable
