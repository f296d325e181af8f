import CogMachine.Proofs.HostVerbs
import CogMachine.Proofs.Isolation
import CogMachine.Proofs.Malformed

/-!
# Registers

What a message hands over stands in the registers of the frame that it opens: sender, source and four
parameters, next to the script and the memory of the instance. Nested calls copy them one by one, returns and
verbs leave them, and the host between two executions cannot change them either.

- `Frame.OpenedOn` says what a frame has from its instance and its context; every frame that comes of it has
  the same (`inherited_openedOn`).
- `Resumable.Lives` are the states that a continuation can get into, with the host's verbs, over any number of
  suspensions.
- `Equipped.cycle` is the step: all frames keep their registers, and their memory is there.
- `registers_inherited`: so the system verbs answer what the message handed over, and no run fails for want of a
  memory.
-/

namespace CogMachine

/-- **What a frame has** from the instance that it was opened on and from the message. -/
def Frame.OpenedOn (i : Instance) (context : Context) (f : Frame) : Prop :=
  f.script = i.script ∧ f.memory = some i.memory ∧ f.context = context

theorem inherited_openedOn (i : Instance) (context : Context) : Inherited (Frame.OpenedOn i context) where
  counter _ _ h := h
  setResult _ _ h := h
  nested _ _ _ h := h

/-- The parameter of that number, void for a number that is none. -/
def Context.paramAt (c : Context) (n : Int) : Value :=
  if h : 0 ≤ n ∧ n < 4 then c.params[n.toNat] else .void

theorem Context.param_toNat (c : Context) {n : Int} (h : 0 ≤ n) : c.param n.toNat = c.paramAt n := by
  unfold param paramAt
  by_cases hn : n < 4
  · have hbound : n.toNat < 4 := by omega
    rw [dif_pos ⟨h, hn⟩, Vector.getElem?_eq_getElem hbound, Option.getD_some]
  · have hbound : 4 ≤ n.toNat := by omega
    rw [dif_neg (by omega), Vector.getElem?_eq_none hbound, Option.getD_none]

/-- A fault other than that a memory is missing. -/
def Fault.FindsMemory (f : Fault) : Prop := f.cause ≠ .noMemory

theorem Literal.Malformed.inCode {bytes : Array UInt8} {start offset : Nat} {cause : Fault.Cause}
    (h : Literal.Malformed bytes start offset cause) : cause.inCode = true := by
  cases h <;> rfl

/-- **The decoder** complains of the code. -/
theorem Program.inCode_of_decode {p : Program} {offset : Nat} {cause : Fault.Cause}
    (h : p.decode offset = .error cause) : cause.inCode = true := by
  cases Instruction.malformed_of_decode h with
  | outside hsize => rfl
  | tagUnknown htag hunknown => rfl
  | literal htag hliteral => exact hliteral.inCode
  | wordMissing htag hm hsize => rfl
  | targetOutside htag hword htarget => rfl

namespace Resumable

open CogMachine.Action (Meets Upholds)
open Machine (UpheldInFrame Upheld)

variable {σ : Type} {write : String → σ → σ} {verbs : VerbTable (Handler σ)} {limits : Limits}
variable {i : Instance} {context : Context} {m m' m₀ : Machine (World σ)}

/-- **Equipped.** All frames have what they were opened with, and the memory is there. -/
structure Equipped (i : Instance) (context : Context) (m : Machine (World σ)) : Prop where
  frames : m.continuation.Every (Frame.OpenedOn i context)
  memory : (m.rest.memories.get? i.memory).isSome = true

/-! ## Instructions -/

theorem Equipped.modifyTop (hm : Equipped i context m) {g : Frame → Frame}
    (hg : ∀ f : Frame, f.OpenedOn i context → (g f).OpenedOn i context) :
    Equipped i context { m with continuation := m.continuation.modifyTop g } :=
  ⟨hm.frames.modifyTop hg, hm.memory⟩

/-- **The memory** of the innermost frame is there. -/
theorem Equipped.exists_memory (hm : Equipped i context m) {f : Frame} (htop : m.continuation.top? = some f) :
    ∃ memory, m.rest.memories.get? i.memory = some memory ∧ f.memory = some i.memory := by
  obtain ⟨-, hmemory, -⟩ := hm.frames.top htop
  obtain ⟨memory, hget⟩ := Option.isSome_iff_exists.1 hm.memory
  exact ⟨memory, hget, hmemory⟩

theorem upheldInFrame_equipped :
    UpheldInFrame (engine verbs) (Equipped i context) Fault.FindsMemory fun _ => True := by
  refine Machine.upheldInFrame_of_operands nofun nofun (fun m hm operands => ⟨hm.frames, hm.memory⟩) ?_ ?_ ?_
  · intro m f address cause hm htop h
    obtain ⟨memory, hget, hmemory⟩ := hm.exists_memory htop
    have hload : m.rest.memories.load f.memory address = .error cause := h
    rw [hmemory, Memories.load_of_get? hget] at hload
    rw [Memory.cause_of_load hload]
    nofun
  · rintro ⟨c, ⟨memories, services⟩⟩ f address v hm htop
    obtain ⟨memory, hget, hmemory⟩ := hm.exists_memory htop
    simp only [Machine.inRest, engine, hmemory, Memories.locate_of_get? hget]
    cases hi : memory.index address with
    | error cause =>
        rw [Memory.cause_of_index hi]
        exact ⟨hm, nofun⟩
    | ok n =>
        have hkept : ((memories.set i.memory n v).get? i.memory).isSome = true := by
          rw [Memories.get?_set_self, Option.isSome_map]
          exact hm.memory
        exact ⟨hm.frames, hkept⟩
  · intro target _ m hm
    exact hm.modifyTop fun f hf => hf

theorem upheld_equipped : Upheld (engine verbs) limits (Equipped i context) Fault.FindsMemory fun _ => True where
  toUpheldInFrame := upheldInFrame_equipped
  link target _ := by
    refine Machine.upholds_link_of nofun nofun ?_
    intro m f hm htop _
    exact ⟨hm.frames.pushNested (inherited_openedOn i context) (hm.frames.top htop) target, hm.memory⟩
  retire m hm := ⟨hm.frames.retire (inherited_openedOn i context), hm.memory⟩

theorem HostVerb.upholds_equipped {handler : Handler σ} (h : HostVerb write handler) (keeps : Bool) :
    Upholds (Equipped i context) Fault.FindsMemory (handler keeps) := by
  refine h.upholds keeps nofun nofun ?_ ?_ ?_
  · intro m hm operands v _
    exact ⟨hm.frames, hm.memory⟩
  · intro m hm v
    exact hm.modifyTop fun f hf => hf
  · intro m hm services
    exact ⟨hm.frames, hm.memory⟩

/-- **All instructions,** calls of the host's verbs included. -/
theorem upholds_perform (hverbs : ∀ v ∈ verbs.verbs, HostVerb write v.handler) (limits : Limits)
    (o : Opcode) : Upholds (Equipped i context) Fault.FindsMemory (Machine.perform (engine verbs) limits o) := by
  by_cases hcall : ∃ keeps id, o = .call keeps id
  · obtain ⟨keeps, id, rfl⟩ := hcall
    refine upheldInFrame_equipped.call (upholds_invoke (fun _ => nofun) ?_ id keeps)
    intro v hv keeps
    exact (hverbs v hv).upholds_equipped keeps
  · exact upheld_equipped.perform (by simpa using hcall) fun _ _ => trivial

/-! ## Cycles -/

/-- **The step.** A cycle keeps all frames equipped, and does not fail for want of a memory. -/
theorem Equipped.cycle (hverbs : ∀ v ∈ verbs.verbs, HostVerb write v.handler) (limits : Limits)
    (hm : Equipped i context m) : Equipped i context (Machine.cycle (engine verbs) limits m).2 ∧
      ∀ f, (Machine.cycle (engine verbs) limits m).1 = .faulted f → f.FindsMemory := by
  rcases Machine.cycle_cases (engine verbs) limits m with
    ⟨-, hc⟩ | ⟨callers, g, cause, hf, hd, hc⟩ | ⟨callers, g, ins, hf, hd, hc⟩
  · rw [hc]
    exact ⟨hm, nofun⟩
  · rw [hc]
    refine ⟨hm, ?_⟩
    rintro f h
    cases h
    intro hcause
    rw [Machine.traced_cause] at hcause
    have hcode := Program.inCode_of_decode hd
    rw [show cause = .noMemory from hcause] at hcode
    cases hcode
  · have hadvanced : Equipped i context (m.advance ins.next) := hm.modifyTop fun f hf => hf
    have hmeets := upholds_perform hverbs limits ins.opcode _ hadvanced
    rw [hc, Machine.settle_snd]
    refine ⟨hmeets.state, ?_⟩
    intro f h hcause
    rcases Machine.cause_of_settle h with ⟨fault, hfault, hsame⟩ | hover
    · rcases hr : Machine.perform (engine verbs) limits ins.opcode (m.advance ins.next) with ⟨fault' | _, t⟩
      · rw [hr] at hmeets hfault
        cases hfault
        exact hmeets.2 (hsame.trans hcause)
      · rw [hr] at hfault
        cases hfault
    · rw [hover] at hcause
      cases hcause

/-! ## Runs -/

/-- **The life of a continuation** that began with `m₀`. Cycles lead from state to state, whatever the limits;
between them the host may do anything with memories and services but take the memory `id` away. -/
inductive Lives (verbs : VerbTable (Handler σ)) (id : MemoryId) (m₀ : Machine (World σ)) :
    Machine (World σ) → Prop where
  | start : Lives verbs id m₀ m₀
  | cycle {m : Machine (World σ)} (limits : Limits) :
      Lives verbs id m₀ m → Lives verbs id m₀ (Machine.cycle (engine verbs) limits m).2
  | host {m : Machine (World σ)} (w : World σ) :
      Lives verbs id m₀ m → (w.memories.get? id).isSome = true → Lives verbs id m₀ ⟨m.continuation, w⟩

theorem Lives.of_cycle {id : MemoryId} {o : Machine.Outcome} (h : Lives verbs id m₀ m)
    (hc : Machine.cycle (engine verbs) limits m = (o, m')) : Lives verbs id m₀ m' := by
  have hnext := h.cycle limits
  rw [hc] at hnext
  exact hnext

theorem Lives.of_continues {id : MemoryId} (h : Lives verbs id m₀ m)
    (hc : Machine.Continues (engine verbs) limits m m') : Lives verbs id m₀ m' := by
  induction hc with
  | start => exact h
  | cycle _ hc _ ih => exact ih.of_cycle hc

/-- **An execution,** whatever it ends with, is a part of the life. -/
theorem Lives.of_execute {id : MemoryId} {fuel : Nat} {r : Except Fault Answer} (h : Lives verbs id m₀ m)
    (hrun : execute verbs limits fuel m = some (r, m')) : Lives verbs id m₀ m' := by
  obtain ⟨b, m₁, hcont, hends⟩ := Machine.Continues.of_execute hrun
  have h₁ := h.of_continues hcont
  cases hends with
  | completed hc | suspended hc | faulted hc | exhausted hc => exact h₁.of_cycle hc

/-- **The run lemma.** -/
theorem Lives.equipped (hverbs : ∀ v ∈ verbs.verbs, HostVerb write v.handler)
    (hstart : Equipped i context m₀) (h : Lives verbs i.memory m₀ m) : Equipped i context m := by
  induction h with
  | start => exact hstart
  | cycle limits _ ih => exact (ih.cycle hverbs limits).1
  | host w _ hw ih => exact ⟨ih.frames, hw⟩

/-- No execution fails for want of a memory. -/
theorem Equipped.findsMemory {fuel : Nat} {f : Fault} (hverbs : ∀ v ∈ verbs.verbs, HostVerb write v.handler)
    (hm : Equipped i context m) (hrun : execute verbs limits fuel m = some (.error f, m')) :
    f.FindsMemory := by
  obtain ⟨b, m₁, hcont, hends⟩ := Machine.Continues.of_execute hrun
  have hm₁ : Equipped i context m₁ := (Lives.start.of_continues hcont).equipped hverbs hm
  cases hends with
  | faulted hc => exact (hm₁.cycle hverbs limits).2 f (congrArg Prod.fst hc)
  | exhausted hc =>
      unfold Fault.FindsMemory Fault.withTrace
      split <;> nofun

/-! ## What verbs answer -/

/-- **A call by name.** The next instruction of `m` calls the verb that the table has under the name, and the
verb answers `r`. -/
def CallsNamed (verbs : VerbTable (Handler σ)) (name : String) (m : Machine (World σ))
    (r : Except Fault Flow) : Prop :=
  ∃ (ins : Instruction) (keeps : Bool) (id : VerbId) (v : Verb (Handler σ)) (m' : Machine (World σ)),
    m.instruction? = some ins ∧ ins.opcode = .call keeps id ∧ verbs.get id = .ok v ∧ v.name = name ∧
    v.handler keeps (m.advance ins.next) = (r, m')

/-- The verbs of the host have different names. -/
theorem eq_of_name {v v' : Verb (Handler σ)} (hv : v ∈ (Host.resumableVerbs write).verbs)
    (hv' : v' ∈ (Host.resumableVerbs write).verbs) (h : v.name = v'.name) : v = v' := by
  have hnames : (Host.resumableVerbs write).verbs.map (·.name) =
      ["getsenderref", "getsourceref", "getparam", "returnex", "suspend", "print", "printint"] := by
    rw [verbs_host]
    rfl
  have hnodup : ((Host.resumableVerbs write).verbs.map (·.name)).Nodup := by
    rw [hnames]
    decide
  exact List.inj_on_of_nodup_map hnodup hv hv' h

/-- What is called by the name of a host's verb is that verb, from a frame with the context. -/
theorem CallsNamed.answer {v : Verb (Handler σ)} {r : Except Fault Flow}
    (hverbs : ∀ v ∈ verbs.verbs, v ∈ (Host.resumableVerbs write).verbs)
    (hv : v ∈ (Host.resumableVerbs write).verbs) (hm : Equipped i context m)
    (h : CallsNamed verbs v.name m r) :
    ∃ (keeps : Bool) (called : Machine (World σ)) (f : Frame), (v.handler keeps called).1 = r ∧
      called.continuation.top? = some f ∧ f.context = context ∧
      called.continuation.operands = m.continuation.operands := by
  obtain ⟨ins, keeps, id, v', m', hins, -, hget, hname, hr⟩ := h
  obtain rfl := eq_of_name (hverbs v' (VerbTable.mem_of_get hget)) hv hname
  obtain ⟨callers, f, hf, -⟩ := Machine.decoded_of_instruction? hins
  have htop := Machine.top?_push (Machine.advance_frames ins.next hf)
  obtain ⟨-, -, hcontext⟩ := hm.frames.top (Machine.top?_push hf)
  exact ⟨keeps, m.advance ins.next, _, congrArg Prod.fst hr, htop, hcontext, rfl⟩

/-- A verb that answers with something of the calling frame. -/
theorem callingFrame_bind_of_top {f : Frame} (g : Frame → Flow) (htop : m.continuation.top? = some f) :
    ((callingFrame >>= fun f => pure (g f) : Action (Machine (World σ)) Flow) m).1 = .ok (g f) := by
  rw [Action.bind_eq]
  simp only [callingFrame, htop]
  rfl

theorem getParam_of_top {f : Frame} {rest : Stack Value} {v : Value} (keeps : Bool)
    (htop : m.continuation.top? = some f) (ho : m.continuation.operands = rest.push v) :
    (getParam keeps m).1 = .ok (.value (f.context.paramAt v.asInt.toInt)) := by
  have hpop : (popOperand : Action (Machine (World σ)) Value) m =
      (.ok v, { m with continuation := { m.continuation with operands := rest } }) := by
    rw [popOperand, Machine.pop, ho, Stack.pop_push]
  have hneg : v.asInt < 0 ↔ v.asInt.toInt < 0 := Int32.lt_iff_toInt_lt
  unfold getParam
  rw [Action.bind_ok _ hpop]
  by_cases hn : v.asInt < 0
  · have hnone : f.context.paramAt v.asInt.toInt = .void := dif_neg (by have := hneg.1 hn; omega)
    rw [hnone]
    simp only [hn, if_true]
    rfl
  · have hnum : 0 ≤ v.asInt.toInt := by
      have := mt hneg.2 hn
      omega
    rw [← Context.param_toNat _ hnum]
    simp only [hn, if_false]
    show Except.ok (Flow.value ((m.continuation.top?.map _).getD _)) = _
    rw [htop]
    rfl

/-- **Registers are inherited, and memory is always bound.** Let a continuation be opened on an instance with
a context, and run with verbs of the host, suspended and resumed any number of times. In every state that it
gets into, all frames have the script and the memory of the instance and the context it was opened with. So the
verbs that read a register answer what the context has, in a nested call of any depth, and neither a cycle nor
an execution fails for want of a memory. Executions lead from each of these states to another. -/
theorem registers_inherited (hverbs : ∀ v ∈ verbs.verbs, v ∈ (Host.resumableVerbs write).verbs)
    {c : Continuation} {w : World σ} (hopens : i.OpensWith context c)
    (hmemory : (w.memories.get? i.memory).isSome = true) (h : Lives verbs i.memory ⟨c, w⟩ m) :
    (∀ f ∈ m.continuation.frames.toList,
      f.script = i.script ∧ f.memory = some i.memory ∧ f.context = context) ∧
    (∀ r, CallsNamed verbs "getsenderref" m r → r = .ok (.value context.sender)) ∧
    (∀ r, CallsNamed verbs "getsourceref" m r → r = .ok (.value context.source)) ∧
    (∀ r (rest : Stack Value) (v : Value), CallsNamed verbs "getparam" m r →
      m.continuation.operands = rest.push v → r = .ok (.value (context.paramAt v.asInt.toInt))) ∧
    ∀ limits,
      (∀ f m', Machine.cycle (engine verbs) limits m = (.faulted f, m') → f.cause ≠ .noMemory) ∧
      ∀ fuel r m', execute verbs limits fuel m = some (r, m') →
        Lives verbs i.memory ⟨c, w⟩ m' ∧ ∀ f, r = .error f → f.cause ≠ .noMemory := by
  have hhost : ∀ v ∈ verbs.verbs, HostVerb write v.handler := fun v hv => hostVerb_of_mem (hverbs v hv)
  have hstart : Equipped i context ⟨c, w⟩ := by
    obtain ⟨entry, rfl⟩ := hopens.eq_ofFrame
    exact ⟨Continuation.every_ofFrame fun _ => ⟨rfl, rfl, rfl⟩, hmemory⟩
  have hm := h.equipped hhost hstart
  refine ⟨?_, ?_, ?_, ?_, ?_⟩
  · intro f hf
    exact hm.frames f (List.mem_reverse.1 hf)
  · intro r hcall
    obtain ⟨keeps, called, f, rfl, htop, rfl, -⟩ :=
      CallsNamed.answer (v := ⟨"getsenderref", getSender⟩) hverbs (by simp [verbs_host]) hm hcall
    exact callingFrame_bind_of_top _ htop
  · intro r hcall
    obtain ⟨keeps, called, f, rfl, htop, rfl, -⟩ :=
      CallsNamed.answer (v := ⟨"getsourceref", getSource⟩) hverbs (by simp [verbs_host]) hm hcall
    exact callingFrame_bind_of_top _ htop
  · intro r rest v hcall ho
    obtain ⟨keeps, called, f, rfl, htop, rfl, hoperands⟩ :=
      CallsNamed.answer (v := ⟨"getparam", getParam⟩) hverbs (by simp [verbs_host]) hm hcall
    exact getParam_of_top keeps htop (hoperands.trans ho)
  · intro limits
    constructor
    · intro f m' hc
      exact (hm.cycle hhost limits).2 f (congrArg Prod.fst hc)
    · intro fuel r m' hrun
      refine ⟨h.of_execute hrun, ?_⟩
      rintro f rfl
      exact hm.findsMemory hhost hrun

/-- A script that suspends in a nested call, and then asks for its third parameter. -/
def asking : Script :=
  .ofProgram "asking"
    (.ofBytes ([.branch .link 6, .ret, .call false ⟨4⟩, .push (.int 2), .call true ⟨2⟩].flatMap
      Opcode.encode))

def asked : Context := Context.empty.withParam 2 (.string "cog")

/-- A frame of it that was opened with this context. -/
def askingFrame (counter : Nat) : Frame :=
  { Frame.enter asking counter with memory := some ⟨0⟩, context := asked }

def askingStart : Machine (World Unit) := ⟨.ofFrame (askingFrame 0), oneMemory⟩

def askingPaused : Machine (World Unit) :=
  ⟨(Continuation.ofFrame (askingFrame 5)).pushFrame (askingFrame 11), oneMemory⟩

/-- It was resumed, and the next instruction asks. -/
def askingLeft : Machine (World Unit) :=
  ⟨⟨Stack.ofList [askingFrame 5, askingFrame 17], .ofList [.int 2]⟩, oneMemory⟩

/-- The nested frame is answered what the message handed to its caller. -/
theorem registers_inherited_asking :
    (⟨asking, ⟨0⟩⟩ : Instance).OpensWith asked askingStart.continuation ∧
    Lives quietVerbs ⟨0⟩ askingStart askingLeft ∧
    (∀ f ∈ askingLeft.continuation.frames.toList,
      f.script = asking ∧ f.memory = some ⟨0⟩ ∧ f.context = asked) ∧
    ∃ r, CallsNamed quietVerbs "getparam" askingLeft r ∧ r = .ok (.value (.string "cog")) := by
  have hopens : (⟨asking, ⟨0⟩⟩ : Instance).OpensWith asked askingStart.continuation := .inl ⟨0, rfl⟩
  have hpause : execute quietVerbs .standard 2 askingStart = some (.ok (.suspended .void), askingPaused) := rfl
  have hpush : Machine.cycle (engine quietVerbs) .standard askingPaused = (.next, askingLeft) := rfl
  have hlives : Lives quietVerbs ⟨0⟩ askingStart askingLeft := (Lives.start.of_execute hpause).of_cycle hpush
  have hcall : CallsNamed quietVerbs "getparam" askingLeft (.ok (.value (.string "cog"))) :=
    ⟨⟨.call true ⟨2⟩, 17, 22⟩, true, ⟨2⟩, ⟨"getparam", getParam⟩, _, rfl, rfl, rfl, rfl, rfl⟩
  have hverbs : ∀ v ∈ quietVerbs.verbs, v ∈ (Host.resumableVerbs fun _ (s : Unit) => s).verbs :=
    fun v hv => hv
  obtain ⟨hframes, -, -, hparam, -⟩ := registers_inherited hverbs hopens rfl hlives
  exact ⟨hopens, hlives, hframes, _, hcall, hparam _ .empty (.int 2) hcall rfl⟩

end Resumable
end CogMachine
