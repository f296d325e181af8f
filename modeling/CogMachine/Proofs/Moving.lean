import CogMachine.Proofs.HostVerbs
import CogMachine.Proofs.Recoding
import CogMachine.Proofs.Turns

/-!
# Runs of recoded programs

A machine that runs a program is compared with the machine whose frames stand, in the recoded program, where
their offsets go. Nothing that an instruction does depends on the script or the offsets of the frames but
where it goes next, so the one machine does what the other does.

- `moving` is the simulation, with nothing lost and nothing in excess; `moving_lawful` are the primitive
  actions, and `HostVerb.carries` the verbs of the host, which do not look at scripts and offsets either.
- `Script.Recoded` says when two scripts belong together, and `CallsCarry` when two tables of verbs do.
- `Resumable.cycle_cases`: a cycle is the same on both sides, unless its call is left out: then the second
  machine is already in the state to which the first one goes.
-/

namespace CogMachine

/-- The frame in another script, where its offset goes. -/
def Frame.moved (script : Script) (target : Nat → Nat) (f : Frame) : Frame :=
  { f with script := script, counter := target f.counter }

namespace Continuation

variable {script : Script} {target : Nat → Nat}

def moved (script : Script) (target : Nat → Nat) (c : Continuation) : Continuation :=
  ⟨c.frames.map (Frame.moved script target), c.operands⟩

theorem moved_top? (c : Continuation) :
    (c.moved script target).top? = c.top?.map (Frame.moved script target) :=
  Stack.top?_map _ c.frames

theorem moved_modifyTop {g k : Frame → Frame}
    (hg : ∀ f, (g f).moved script target = k (f.moved script target)) (c : Continuation) :
    (c.modifyTop g).moved script target = (c.moved script target).modifyTop k :=
  mapFrames_modifyTop hg c

/-- Returning does not look at where frames are. -/
theorem keepsReturn_moved : KeepsReturn (Frame.moved script target) where
  returned _ := rfl
  height _ := rfl
  savesResult _ := rfl
  pushesResult _ := rfl
  setResult _ _ := rfl

theorem moved_retire (c : Continuation) :
    (c.moved script target).retire = (c.retire.1, c.retire.2.moved script target) :=
  mapFrames_retire keepsReturn_moved c

/-- If offsets stay and the script has the same name, the trace is the same. -/
theorem moved_trace {c : Continuation} (hname : ∀ f ∈ c.frames.items, f.script.name = script.name)
    (htarget : ∀ n, target n = n) : (c.moved script target).trace = c.trace := by
  simp only [trace, moved, Stack.toList_map, List.map_map]
  apply List.map_congr_left
  intro f hf
  simp only [Function.comp, Frame.location, Frame.moved, htarget, hname f (List.mem_reverse.1 hf)]

end Continuation

namespace Resumable

variable {σ : Type} {script : Script} {target : Nat → Nat} {limits : Limits}
variable {t t' : VerbTable (Handler σ)}

/-! ## The simulation -/

/-- **Moving** all frames to another script. Nothing is lost and nothing in excess. -/
def moving (script : Script) (target : Nat → Nat) : Simulation (World σ) (World σ) where
  invariant _ := True
  state m := ⟨m.continuation.moved script target, m.rest⟩
  target := target
  lost _ := False
  excess _ := False

section Actions

variable {α β : Type}

theorem eq_of_moving {ρ : α → β} {a : Action (Machine (World σ)) α} {a' : Action (Machine (World σ)) β}
    (h : (moving script target).Carries ρ a a') (m : Machine (World σ)) :
    a' ((moving script target).state m) =
      ((a m).1.map ρ, (moving script target).state (a m).2) := by
  rcases h m trivial with ⟨-, hsame⟩ | ⟨_, _, -, hlost⟩ | ⟨_, _, -, hexcess⟩
  · exact hsame
  · exact hlost.elim
  · exact hexcess.elim

theorem moving_pop : (moving (σ := σ) script target).Carries id Machine.pop Machine.pop := by
  rintro ⟨⟨frames, operands⟩, rest⟩ -
  rcases operands.eq_empty_or_push with rfl | ⟨below, v, rfl⟩
  · exact .inl ⟨trivial, rfl⟩
  · exact .inl ⟨trivial, rfl⟩

theorem moving_push (v : Value) :
    (moving (σ := σ) script target).Carries id (Machine.push v) (Machine.push v) :=
  fun _ _ => .inl ⟨trivial, rfl⟩

theorem moving_dup : (moving script target).Carries id
    (Machine.perform (engine t) limits .dup) (Machine.perform (engine t') limits .dup) := by
  refine Simulation.Carries.get_bind fun m _ => ?_
  exact (Simulation.Carries.lift _).bind fun v => (moving_push v).bind fun _ => .pure id _

theorem moving_modifyTop {g g' : Frame → Frame}
    (hg : ∀ f, (g f).moved script target = g' (f.moved script target)) :
    (moving (σ := σ) script target).Carries id
      (modify fun m => { m with continuation := m.continuation.modifyTop g })
      (modify fun m => { m with continuation := m.continuation.modifyTop g' }) := by
  intro m _
  refine .inl ⟨trivial, ?_⟩
  show (Except.ok _, Machine.mk ((m.continuation.moved script target).modifyTop g') m.rest) =
    (Except.ok _, Machine.mk ((m.continuation.modifyTop g).moved script target) m.rest)
  rw [Continuation.moved_modifyTop hg]

theorem moving_jump (n : Nat) :
    (moving (σ := σ) script target).Carries id (Machine.jump n) (Machine.jump (target n)) :=
  moving_modifyTop fun _ => rfl

theorem moving_top_bind {ρ : α → β} {k : Frame → Action (Machine (World σ)) α}
    {k' : Frame → Action (Machine (World σ)) β}
    (h : ∀ f, (moving script target).Carries ρ (k f) (k' (f.moved script target))) :
    (moving script target).Carries ρ (Machine.top >>= k) (Machine.top >>= k') := by
  intro m hm
  have hmoved : ((moving script target).state m).continuation.top? =
      m.continuation.top?.map (Frame.moved script target) := m.continuation.moved_top?
  rw [Action.bind_eq Machine.top k, Action.bind_eq Machine.top k']
  cases htop : m.continuation.top? with
  | none =>
      rw [htop, Option.map_none] at hmoved
      simp only [Machine.top, htop, hmoved]
      exact .inl ⟨hm, rfl⟩
  | some f =>
      rw [htop, Option.map_some] at hmoved
      simp only [Machine.top, htop, hmoved]
      exact h f m hm

theorem moving_load (address : Int) : (moving script target).Carries id
    (Machine.load (engine t) address) (Machine.load (engine t') address) := by
  unfold Machine.load
  refine Simulation.Carries.get_bind fun m _ => moving_top_bind fun f => ?_
  exact (Simulation.Carries.lift _).bind fun v => moving_push v

theorem moving_store (address : Int) (v : Value) : (moving script target).Carries id
    (Machine.store (engine t) address v) (Machine.store (engine t') address v) := by
  unfold Machine.store
  refine moving_top_bind fun f => ?_
  rintro ⟨c, rest⟩ -
  refine .inl ⟨trivial, ?_⟩
  show Machine.inRest ((engine t).store f address v) ⟨c.moved script target, rest⟩ = _
  simp only [Machine.inRest]
  generalize (engine t).store f address v rest = r
  rcases r with ⟨fault | _, rest'⟩ <;> rfl

theorem moving_link (n : Nat) : (moving (σ := σ) script target).Carries id
    (Machine.branch limits n .link) (Machine.branch limits (target n) .link) := by
  refine Simulation.Carries.get_bind fun m _ => ?_
  show (moving script target).Carries id
    (if limits.callDepth ≤ m.continuation.depth then _ else _)
    (if limits.callDepth ≤ m.continuation.depth then _ else _)
  by_cases hdeep : limits.callDepth ≤ m.continuation.depth
  · rw [if_pos hdeep, if_pos hdeep]
    exact fun _ _ => .inl ⟨trivial, rfl⟩
  · rw [if_neg hdeep, if_neg hdeep]
    exact moving_top_bind fun f _ _ => .inl ⟨trivial, rfl⟩

theorem moving_retire :
    (moving (σ := σ) script target).Carries id Machine.retire Machine.retire := by
  intro m _
  refine .inl ⟨trivial, ?_⟩
  have hmoved : (m.continuation.moved script target).retire =
      (m.continuation.retire.1, m.continuation.retire.2.moved script target) :=
    m.continuation.moved_retire
  show (Except.ok ((m.continuation.moved script target).retire.1.map _),
      Machine.mk (m.continuation.moved script target).retire.2 _) =
    (Except.ok (m.continuation.retire.1.map _),
      Machine.mk (m.continuation.retire.2.moved script target) _)
  rw [hmoved]
  rfl

/-- **The primitive actions carry over.** -/
theorem moving_lawful (t t' : VerbTable (Handler σ)) (script : Script) (target : Nat → Nat)
    (limits : Limits) : (moving script target).Lawful (engine t) (engine t') limits limits where
  pop := moving_pop
  push := moving_push
  dup := moving_dup
  jump := moving_jump
  link := moving_link
  load := moving_load
  store := moving_store

end Actions

/-! ## Verbs of the host -/

section Verbs

variable {α : Type} {write : String → σ → σ}

theorem moving_callingFrame_bind {k k' : Frame → Action (Machine (World σ)) α}
    (h : ∀ f, (moving script target).Carries id (k f) (k' (f.moved script target))) :
    (moving script target).Carries id (callingFrame >>= k) (callingFrame >>= k') := by
  intro m hm
  have hmoved : ((moving script target).state m).continuation.top? =
      m.continuation.top?.map (Frame.moved script target) := m.continuation.moved_top?
  rw [Action.bind_eq callingFrame k, Action.bind_eq callingFrame k']
  cases htop : m.continuation.top? with
  | none =>
      rw [htop, Option.map_none] at hmoved
      simp only [callingFrame, htop, hmoved]
      exact .inl ⟨hm, rfl⟩
  | some f =>
      rw [htop, Option.map_some] at hmoved
      simp only [callingFrame, htop, hmoved]
      exact h f m hm

/-- **The host's verbs** do not look at where frames are. -/
theorem HostVerb.carries {handler : Handler σ} (h : HostVerb write handler) (keeps : Bool) :
    (moving script target).Carries id (handler keeps) (handler keeps) := by
  cases h with
  | getSender => exact moving_callingFrame_bind fun f => .pure id _
  | getSource => exact moving_callingFrame_bind fun f => .pure id _
  | getParam =>
      refine moving_pop.bind fun v => Simulation.Carries.get_bind fun m _ => ?_
      have hparam : (((moving script target).state m).continuation.top?.map
          fun f => f.context.param v.asInt.toInt.toNat) =
            m.continuation.top?.map fun f => f.context.param v.asInt.toInt.toNat := by
        show ((m.continuation.moved script target).top?.map _) = _
        rw [Continuation.moved_top?, Option.map_map]
        rfl
      show (moving script target).Carries id (if v.asInt < 0 then _ else _)
        (if v.asInt < 0 then _ else pure (Flow.value (Option.getD
          (((moving script target).state m).continuation.top?.map
            fun f => f.context.param v.asInt.toInt.toNat) _)))
      rw [hparam]
      split
      · exact .pure id _
      · exact .pure id _
  | setReturn =>
      refine moving_pop.bind fun v => ?_
      have hset : (moving (σ := σ) script target).Carries id (modifyCaller fun f => f.setResult v)
          (modifyCaller fun f => f.setResult v) :=
        moving_callingFrame_bind fun f => moving_modifyTop fun _ => rfl
      exact hset.bind fun _ => .pure id _
  | suspend => exact .pure id _
  | print line =>
      refine moving_pop.bind fun v => ?_
      have hprint : (moving (σ := σ) script target).Carries id
          (modify fun m => { m with rest := { m.rest with services := write (line v) m.rest.services } })
          (modify fun m => { m with rest := { m.rest with services := write (line v) m.rest.services } }) :=
        fun _ _ => .inl ⟨trivial, rfl⟩
      exact hprint.bind fun _ => .pure id _

end Verbs

end Resumable

/-! ## Recoded scripts -/

/-- The entries with their offsets moved. -/
def movedEntries (target : Nat → Nat) (entries : List (String × Nat)) : List (String × Nat) :=
  entries.map fun (message, n) => (message, target n)

theorem lookup_movedEntries (target : Nat → Nat) (entries : List (String × Nat)) (name : String) :
    (movedEntries target entries).lookup name = (entries.lookup name).map target := by
  unfold movedEntries
  induction entries with
  | nil => rfl
  | cons entry entries ih =>
      rw [List.map_cons, List.lookup_cons, List.lookup_cons, ih]
      cases name == entry.1 <;> rfl

/-- **A recoded script:** the opcodes are recoded, and the messages have gone where their handlers are. -/
structure Script.Recoded (r : Recoding) (os : List Opcode) (script script' : Script) : Prop where
  program : script.program = .ofBytes (os.flatMap Opcode.encode)
  recoded : script'.program = .ofBytes ((r.opcodes os).flatMap Opcode.encode)
  aimed : Program.WellAimed os
  last : ∀ o, os.getLast? = some o → r.keeps o = true
  name : script'.name = script.name
  symbols : script'.symbols = script.symbols
  exports : script'.exports.entries = movedEntries (r.relocate os) script.exports.entries
  boundary : ∀ message n, script.exports.offset? message = some n → Boundary os n

namespace Script.Recoded

variable {r : Recoding} {os : List Opcode} {script script' : Script}

/-- Programs that keep all offsets are of the same length. -/
theorem length_eq (h : script.Recoded r os script') (hstay : ∀ n, r.relocate os n = n) :
    script'.program.length = script.program.length := by
  rw [h.recoded, h.program, Program.length_ofBytes, Program.length_ofBytes, ← r.relocate_extent, hstay]

/-- **An entry check** comes to the same where the offset has gone. -/
theorem checkAddress_cases (h : script.Recoded r os script') {n : Nat} (hn : Boundary os n) :
    (script.program.checkAddress n = .ok () ∧
      script'.program.checkAddress (r.relocate os n) = .ok ()) ∨
    ∃ cause cause', script.program.checkAddress n = .error cause ∧
      script'.program.checkAddress (r.relocate os n) = .error cause' ∧
      ((∀ n, r.relocate os n = n) → cause' = cause) := by
  have hlength : script.program.length = extent os := by rw [h.program, Program.length_ofBytes]
  have hlength' : script'.program.length = extent (r.opcodes os) := by
    rw [h.recoded, Program.length_ofBytes]
  have hinside := r.relocate_lt_iff h.last hn
  rw [← hlength, ← hlength'] at hinside
  unfold Program.checkAddress
  by_cases hlt : n < script.program.length
  · rw [if_pos hlt, if_pos (hinside.2 hlt)]
    exact .inl ⟨rfl, rfl⟩
  · rw [if_neg hlt, if_neg (hinside.not.2 hlt)]
    refine .inr ⟨_, _, rfl, rfl, fun hstay => ?_⟩
    rw [h.length_eq hstay, hstay]

/-- **An entry** of a script is one of the recoded script, and its offset has gone there. -/
theorem enter_cases (h : script.Recoded r os script') {entry : Host.Entry}
    (hentry : ∀ n, entry = .offset n → n = 0) :
    (∃ n, Boundary os n ∧ script.enter entry = .ok n ∧ script'.enter entry = .ok (r.relocate os n)) ∨
    ∃ cause cause', script.enter entry = .error cause ∧ script'.enter entry = .error cause' ∧
      ((∀ n, r.relocate os n = n) → cause' = cause) := by
  cases entry with
  | offset n =>
      obtain rfl := hentry n rfl
      have hcheck := h.checkAddress_cases (boundary_zero os)
      rw [r.relocate_zero] at hcheck
      simp only [Script.enter]
      rcases hcheck with ⟨hok, hok'⟩ | ⟨cause, cause', herror, herror', hsame⟩
      · rw [hok, hok']
        refine .inl ⟨0, boundary_zero os, rfl, ?_⟩
        rw [r.relocate_zero]
        rfl
      · rw [herror, herror']
        exact .inr ⟨cause, cause', rfl, rfl, hsame⟩
  | message name =>
      have hoffset : script'.exports.offset? name =
          (script.exports.offset? name).map (r.relocate os) := by
        rw [ExportTable.offset?, h.exports]
        exact lookup_movedEntries _ _ _
      simp only [Script.enter, Script.entryPoint, hoffset]
      cases hn : script.exports.offset? name with
      | none => exact .inr ⟨_, _, rfl, rfl, fun _ => rfl⟩
      | some n =>
          have hboundary := h.boundary name n hn
          simp only [Option.map_some, bind, Except.bind]
          rcases h.checkAddress_cases hboundary with
            ⟨hok, hok'⟩ | ⟨cause, cause', herror, herror', hsame⟩
          · rw [hok, hok']
            exact .inl ⟨n, hboundary, rfl, rfl⟩
          · rw [herror, herror']
            exact .inr ⟨cause, cause', rfl, rfl, hsame⟩

end Script.Recoded

namespace Resumable

variable {σ : Type} {r : Recoding} {os : List Opcode} {script script' : Script} {limits : Limits}
variable {t t' : VerbTable (Handler σ)} {m : Machine (World σ)}

/-- **Tables that belong together:** a call that stays does what the call in its place does. -/
def CallsCarry (r : Recoding) (os : List Opcode) (script' : Script) (t t' : VerbTable (Handler σ)) :
    Prop :=
  ∀ keeps verb verb', .call keeps verb ∈ os → r.call? keeps verb = some verb' →
    (moving script' (r.relocate os)).Carries id (invoke t verb keeps) (invoke t' verb' keeps)

/-- Opcodes that stay match. -/
theorem matching_of_opcode? (ht : CallsCarry r os script' t t') {o o' : Opcode} (ho : o ∈ os)
    (h : r.opcode? (r.relocate os) o = some o') :
    Simulation.Matching (moving script' (r.relocate os)) (engine t) (engine t') o o' := by
  cases o with
  | call keeps verb =>
      obtain ⟨verb', hverb, rfl⟩ := Option.map_eq_some_iff.1 h
      exact .call (ht keeps verb verb' ho hverb)
  | branch op n =>
      cases h
      exact .branch op n
  | push v =>
      cases h
      exact .push v
  | dup =>
      cases h
      exact .dup
  | memory op address =>
      cases h
      exact .memory op address
  | ret =>
      cases h
      exact .ret moving_retire
  | unary op =>
      cases h
      exact .unary op
  | binary op =>
      cases h
      exact .binary op

theorem moving_advance (m : Machine (World σ)) (target : Nat → Nat) (n : Nat) :
    (moving script' target).state (m.advance n) =
      ((moving script' target).state m).advance (target n) := by
  have hmoved : (m.continuation.modifyTop fun f => { f with counter := n }).moved script' target =
      (m.continuation.moved script' target).modifyTop fun f => { f with counter := target n } := by
    apply Continuation.moved_modifyTop
    intro f
    rfl
  show Machine.mk ((m.continuation.modifyTop _).moved _ _) _ =
    Machine.mk ((m.continuation.moved _ _).modifyTop _) _
  rw [hmoved]
  rfl

/-- **Alike:** the same outcome, but for what a fault says of offsets that have moved. -/
def Alike (r : Recoding) (os : List Opcode) (o o' : Machine.Outcome) : Prop :=
  o' = o ∨ ∃ f f', o = .faulted f ∧ o' = .faulted f' ∧ ((∀ n, r.relocate os n = n) → f' = f)

/-- **A call that is left out** comes next. -/
def AtLeftOut (r : Recoding) (os : List Opcode) (m : Machine (World σ)) : Prop :=
  ∃ (callers : Stack Frame) (f : Frame) (keeps : Bool) (verb : VerbId),
    m.continuation.frames = callers.push f ∧ .call keeps verb ∈ os ∧ r.call? keeps verb = none ∧
    f.script.program.decode f.counter = .ok ⟨.call keeps verb, f.counter, f.counter + 5⟩ ∧
    r.relocate os (f.counter + 5) = r.relocate os f.counter

theorem name_of_placed {P : Nat → Prop} (hname : script'.name = script.name)
    (hm : m.Placed script P) : ∀ f ∈ m.continuation.frames.items, f.script.name = script'.name := by
  intro f hf
  have hscript : f.script = script := (hm f.place (List.mem_map_of_mem hf)).1
  rw [hname, hscript]

/-- If offsets stay, a fault is traced to the same places. -/
theorem traced_moved (hname : script'.name = script.name) (hm : m.Placed script (Boundary os))
    (hstay : ∀ n, r.relocate os n = n) (fault : Fault) (slot position : Nat) :
    Machine.traced fault slot (r.relocate os position)
        (m.continuation.moved script' (r.relocate os)) =
      Machine.traced fault slot position m.continuation := by
  rw [Machine.traced, Machine.traced, Continuation.moved_trace (name_of_placed hname hm) hstay,
    hstay position]

theorem frames_moving (script' : Script) (target : Nat → Nat) {callers : Stack Frame} {f : Frame}
    (hf : m.continuation.frames = callers.push f) :
    ((moving script' target).state m).continuation.frames =
      (callers.map (Frame.moved script' target)).push (f.moved script' target) := by
  show m.continuation.frames.map _ = _
  rw [hf]
  rfl

/-- Settling looks at offsets only to trace a fault. -/
theorem settle_moving (limits : Limits) (hname : script'.name = script.name) (slot position : Nat)
    {x : Except Fault (Option Halt) × Machine (World σ)} (hx : x.2.Placed script (Boundary os)) :
    ∃ outcome', Machine.settle limits slot (r.relocate os position)
        (x.1, (moving script' (r.relocate os)).state x.2) =
          (outcome', (moving script' (r.relocate os)).state x.2) ∧
      Alike r os (Machine.settle limits slot position x).1 outcome' := by
  obtain ⟨fault | _ | halt, m⟩ := x
  · exact ⟨_, rfl, .inr ⟨_, _, rfl, rfl, fun hstay => traced_moved hname hx hstay fault slot position⟩⟩
  · simp only [Machine.settle]
    show ∃ outcome', (if limits.stackDepth < m.continuation.operands.height then _ else _) = _ ∧ _
    split
    · exact ⟨_, rfl, .inr ⟨_, _, rfl, rfl, fun hstay => traced_moved hname hx hstay _ slot position⟩⟩
    · exact ⟨_, rfl, .inl rfl⟩
  · exact ⟨_, rfl, .inl rfl⟩

/-- **One cycle.** On both sides it does the same, unless its call is left out. -/
theorem cycle_cases (h : script.Recoded r os script') (ht : CallsCarry r os script' t t')
    (he : Machine.Orderly (engine t)) (limits : Limits) (hm : m.Placed script (Boundary os)) :
    (∃ outcome', Machine.cycle (engine t') limits ((moving script' (r.relocate os)).state m) =
        (outcome', (moving script' (r.relocate os)).state (Machine.cycle (engine t) limits m).2) ∧
      Alike r os (Machine.cycle (engine t) limits m).1 outcome' ∧
      ∀ o, m.opcode? = some o → o ∈ os ∧ r.keeps o = true) ∨
    AtLeftOut r os m := by
  have hclosed := Program.closed_boundary h.program h.aimed
  have hplaced : (Machine.cycle (engine t) limits m).2.Placed script (Boundary os) :=
    hm.cycle he hclosed
  rcases m.continuation.frames.eq_empty_or_push with hf | ⟨callers, f, hf⟩
  · have hempty : ((moving script' (r.relocate os)).state m).continuation.frames = .empty := by
      show m.continuation.frames.map _ = _
      rw [hf]
      rfl
    rw [Machine.cycle_of_empty hf, Machine.cycle_of_empty hempty]
    refine .inl ⟨_, rfl, .inl rfl, fun o ho => ?_⟩
    rw [Machine.opcode?, Machine.instruction?, Continuation.top?, hf] at ho
    cases ho
  · obtain ⟨⟨hscript, hcounter⟩, -⟩ := (Machine.placed_push hf).1 hm
    have hmoved := frames_moving script' (r.relocate os) hf
    rcases Recoding.decode_cases h.program h.recoded h.aimed h.last hcounter with
      ⟨herror, herror'⟩ | ⟨o, ho, o', ho', hdecode, hdecode'⟩ | ⟨o, ho, hnone, hdecode, hsame⟩
    · rw [← hscript] at herror
      rw [Machine.cycle_of_malformed hf herror,
        Machine.cycle_of_malformed (f := f.moved script' (r.relocate os)) hmoved herror']
      refine .inl ⟨_, rfl, .inr ⟨_, _, rfl, rfl, fun hstay => ?_⟩, fun o ho => ?_⟩
      · rw [hscript, h.length_eq hstay, Stack.height_map]
        exact traced_moved h.name hm hstay _ callers.height f.counter
      · rw [Machine.opcode?, Machine.instruction?, Machine.top?_push hf, Option.bind_some, herror] at ho
        cases ho
    · rw [← hscript] at hdecode
      have hperform := eq_of_moving ((moving_lawful t t' script' (r.relocate os) limits).perform_matching
        (matching_of_opcode? ht ho ho')) (m.advance (f.counter + o.encodedLength))
      rw [Machine.cycle_of_decoded hf hdecode] at hplaced ⊢
      rw [Machine.settle_snd] at hplaced ⊢
      rw [Machine.cycle_of_decoded (f := f.moved script' (r.relocate os)) hmoved hdecode',
        ← moving_advance, hperform, Stack.height_map, Except.map_id]
      obtain ⟨outcome', hsettle, halike⟩ := settle_moving limits h.name callers.height f.counter
        hplaced
      refine .inl ⟨outcome', hsettle, halike, fun o₁ ho₁ => ?_⟩
      rw [Machine.opcode?_of_decode hf hdecode] at ho₁
      cases ho₁
      exact ⟨ho, Recoding.keeps_of_opcode? ho'⟩
    · rw [← hscript] at hdecode
      cases o with
      | call keeps verb =>
          have hleft : r.call? keeps verb = none := by simpa [Recoding.keeps] using hnone
          exact .inr ⟨callers, f, keeps, verb, hf, ho, hleft, hdecode, hsame⟩
      | push | dup | memory | branch | ret | unary | binary => cases hnone

/-- Moving past a call that is left out makes no difference to the other side. -/
theorem moving_advance_leftOut {callers : Stack Frame} {f : Frame} {n : Nat}
    (hf : m.continuation.frames = callers.push f)
    (hsame : r.relocate os n = r.relocate os f.counter) :
    (moving script' (r.relocate os)).state (m.advance n) =
      (moving script' (r.relocate os)).state m := by
  rw [moving_advance, hsame]
  show Machine.mk ((m.continuation.moved script' (r.relocate os)).modifyTop _) m.rest =
    Machine.mk (m.continuation.moved script' (r.relocate os)) m.rest
  rw [Continuation.modifyTop, Continuation.moved, hf]
  rfl

end Resumable
end CogMachine
