import CogMachine.Proofs.Answers
import CogMachine.Proofs.HostVerbs
import CogMachine.Proofs.Isolation

/-!
# Traces of faults

A fault says where the calls are that were live when it was raised. By then the counter of the executing
frame has usually moved past the instruction, and a cycle puts this one counter back; each frame below must
still stand where the call that it waits for will return to.

- `Continuation.Linked` is that invariant: the frames below the innermost stand right behind nested calls.
- `Modest` engines have verbs that leave the calls alone, and `leaves_perform` is the step of an instruction.
- `linked_of_cycle` and `traced_of_cycle`: a cycle keeps the invariant, or its fault is traced exactly.
- `traces_exact` says so of the faults of both engines, and `traced_of_givesValue` of verbs that always answer a
  value, without any condition on operands.

After a nested call the fault for too many operands would be put in the wrong frames
(`cycle_link_of_overfull`). But neither calls nor returns add an operand, and those there were counted before,
unless a verb that stopped the run left them (`StopsWithin`).
-/

namespace CogMachine

/-- A frame that stands right behind a nested call of its script. -/
def Frame.AfterLink (f : Frame) : Prop :=
  ∃ n i target, f.script.program.decode n = .ok i ∧ i.opcode = .branch .link target ∧ i.next = f.counter

def Fault.Untraced (f : Fault) : Prop := f.trace = []

theorem Fault.untraced_ofCause (cause : Cause) : (ofCause cause).Untraced := rfl

/-! ## Linked frames -/

namespace Continuation

variable {limits : Limits} {c : Continuation} {callers : Stack Frame} {f : Frame}

/-- **Linked.** All frames but the innermost stand right behind a nested call, no result will be pushed, and
the operands are within their limit. -/
structure Linked (limits : Limits) (c : Continuation) : Prop where
  operands : c.operands.height ≤ limits.stackDepth
  flags : c.Every fun f => f.pushesResult = false
  callers : ∀ f ∈ c.frames.items.tail, f.AfterLink

theorem linked_push (h : c.frames = callers.push f) : c.Linked limits ↔
    c.operands.height ≤ limits.stackDepth ∧ f.pushesResult = false ∧
      (∀ g ∈ callers.items, g.pushesResult = false) ∧ ∀ g ∈ callers.items, g.AfterLink := by
  have htail : c.frames.items.tail = callers.items := by
    rw [h]
    rfl
  constructor
  · rintro ⟨hoperands, hflags, hlinks⟩
    obtain ⟨hflag, hflags⟩ := (every_push h).1 hflags
    rw [htail] at hlinks
    exact ⟨hoperands, hflag, hflags, hlinks⟩
  · rintro ⟨hoperands, hflag, hflags, hlinks⟩
    rw [← htail] at hlinks
    exact ⟨hoperands, (every_push h).2 ⟨hflag, hflags⟩, hlinks⟩

theorem not_mem_empty (f : Frame) : f ∉ (Stack.empty : Stack Frame).items := List.not_mem_nil

/-- Without frames there is nothing to wait for a call. -/
theorem linked_of_empty (h : c.frames = .empty) (hoperands : c.operands.height ≤ limits.stackDepth) :
    c.Linked limits := by
  refine ⟨hoperands, ?_, ?_⟩
  · intro f hf
    rw [h] at hf
    exact absurd hf (not_mem_empty f)
  · intro f hf
    rw [h] at hf
    exact absurd hf (not_mem_empty f)

/-- A frame that has just been opened has no callers. -/
theorem linked_ofFrame (limits : Limits) (h : f.pushesResult = false) : (ofFrame f).Linked limits := by
  have hframes : (ofFrame f).frames = Stack.empty.push { f with height := 0 } := rfl
  rw [linked_push hframes]
  exact ⟨Nat.zero_le _, h, fun g hg => absurd hg (not_mem_empty g), fun g hg => absurd hg (not_mem_empty g)⟩

/-- **A nested call** leaves its caller right behind it. -/
theorem Linked.pushNested (h : c.Linked limits) (hf : c.frames = callers.push f) (hlink : f.AfterLink)
    (target : Nat) : (c.pushFrame (f.nested target)).Linked limits := by
  obtain ⟨hoperands, hflag, hflags, hlinks⟩ := (linked_push hf).1 h
  have hframes : (c.pushFrame (f.nested target)).frames =
      (callers.push f).push { f.nested target with height := c.operands.height } := by
    rw [← hf]
    rfl
  rw [linked_push hframes]
  refine ⟨hoperands, rfl, List.forall_mem_cons.2 ⟨hflag, hflags⟩, ?_⟩
  exact (List.forall_mem_cons (p := Frame.AfterLink)).2 ⟨hlink, hlinks⟩

/-- **A return** adds no operand. -/
theorem Linked.retire (h : c.Linked limits) : c.retire.2.Linked limits := by
  rcases c.frames.eq_empty_or_push with hf | ⟨callers, f, hf⟩
  · have hsame : c.retire.2 = c := by
      rw [Continuation.retire, hf]
      rfl
    rw [hsame]
    exact h
  · obtain ⟨hoperands, hflag, hflags, hlinks⟩ := (linked_push hf).1 h
    rcases callers.eq_empty_or_push with rfl | ⟨rest, caller, rfl⟩
    · rw [retire_last hf]
      exact linked_of_empty rfl hoperands
    · obtain ⟨hcaller, hrest⟩ := List.forall_mem_cons.1 hflags
      obtain ⟨-, hrestlinks⟩ := (List.forall_mem_cons (p := Frame.AfterLink)).1 hlinks
      rw [retire_push_push hf, linked_push rfl]
      refine ⟨?_, ?_, hrest, hrestlinks⟩
      · have hkept : (c.operands.truncate f.height).height ≤ limits.stackDepth :=
          Nat.le_trans (Nat.min_le_left _ _) hoperands
        simp only [deliver, hflag]
        exact hkept
      · unfold receive
        split
        · exact hcaller
        · exact hcaller

end Continuation

/-! ## Instructions -/

namespace Machine

open CogMachine.Action (Meets Upholds)

variable {S : Type} {e : Engine S} {limits : Limits} {callers : Stack Frame} {script : Script}
variable {m m' : Machine S} {f : Fault} {g : Frame} {i : Instruction}

/-- These callers, and on top of them a frame that runs the script and will not push its result. -/
def Standing (callers : Stack Frame) (script : Script) (m : Machine S) : Prop :=
  ∃ g, m.continuation.frames = callers.push g ∧ g.script = script ∧ g.pushesResult = false

/-- **A modest engine:** its verbs change of the frames only the calling one, whose script and flag stay,
and its faults are untraced. A verb that stops the run keeps the operands within their limit, since nothing
counts them there. -/
structure Modest (e : Engine S) (limits : Limits) : Prop where
  store : ∀ f address v s fault, (e.store f address v s).1 = .error fault → fault.Untraced
  invoke : ∀ callers script id keeps,
    Upholds (Standing callers script) Fault.Untraced (e.invoke id keeps)
  stops : ∀ id keeps m m' flow, e.invoke id keeps m = (.ok flow, m') → (∀ v, flow ≠ .value v) →
    m.continuation.operands.height ≤ limits.stackDepth →
    m'.continuation.operands.height ≤ limits.stackDepth

theorem upheldInFrame_standing (he : Modest e limits) :
    UpheldInFrame e (Standing callers script) Fault.Untraced fun _ => True := by
  refine upheldInFrame_of_operands rfl rfl (fun m hm operands => hm) ?_ ?_ ?_
  · intro m f address cause _ _ _
    rfl
  · intro m f address v hm _
    exact meets_inRest (fun rest => hm) (he.store f address v m.rest)
  · rintro target - m ⟨g, hf, hscript, hflag⟩
    refine ⟨{ g with counter := target }, ?_, hscript, hflag⟩
    show m.continuation.frames.modifyTop _ = _
    rw [hf, Stack.modifyTop_push]

/-- **What an instruction leaves.** Where it fails the calls are as they were. Where it goes on they are, or
it was itself a call or a return, and then the frames are linked. -/
def Leaves (limits : Limits) (callers : Stack Frame) (script : Script) :
    Except Fault (Option Halt) × Machine S → Prop
  | (.error fault, m) => Standing callers script m ∧ fault.Untraced
  | (.ok none, m) => Standing callers script m ∨ m.continuation.Linked limits
  | (.ok (some _), m) => m.continuation.Linked limits

theorem Standing.linked (h : Standing callers script m')
    (hm : m.continuation.Linked limits) (hf : m.continuation.frames = callers.push g)
    (hoperands : m'.continuation.operands.height ≤ limits.stackDepth) :
    m'.continuation.Linked limits := by
  obtain ⟨-, -, hflags, hlinks⟩ := (Continuation.linked_push hf).1 hm
  obtain ⟨g', hf', -, hflag⟩ := h
  exact (Continuation.linked_push hf').2 ⟨hoperands, hflag, hflags, hlinks⟩

/-- A call of a modest verb. -/
theorem leaves_call (he : Modest e limits) (hm : m.continuation.Linked limits)
    (hf : m.continuation.frames = callers.push g) (keeps : Bool) (id : VerbId) :
    Leaves limits callers g.script (perform e limits (.call keeps id) m) := by
  have hstanding : Standing callers g.script m :=
    ⟨g, hf, rfl, ((Continuation.linked_push hf).1 hm).2.1⟩
  have hmeets := he.invoke callers g.script id keeps m hstanding
  rw [perform_call]
  rcases hinv : e.invoke id keeps m with ⟨fault | v | _ | _, t⟩
  · rw [hinv] at hmeets
    exact hmeets
  · rw [hinv] at hmeets
    cases keeps with
    | true | false => exact .inl hmeets
  · rw [hinv] at hmeets
    have hoperands := he.stops id keeps m t .suspend hinv nofun hm.operands
    exact hmeets.linked hm hf hoperands
  · rw [hinv] at hmeets
    have hoperands := he.stops id keeps m t .restart hinv nofun hm.operands
    exact hmeets.linked hm hf hoperands

theorem perform_link (e : Engine S) (limits : Limits) (target : Nat)
    (hf : m.continuation.frames = callers.push g) : perform e limits (.branch .link target) m =
      if limits.callDepth ≤ m.continuation.depth then
        (.error (.ofCause (.callStackOverflow limits.callDepth)), m)
      else (.ok none, { m with continuation := m.continuation.pushFrame (g.nested target) }) := by
  show (branch limits target .link >>= fun _ => pure none) m = _
  rw [Action.bind_eq, branch_link limits target (top?_push hf)]
  by_cases hfull : limits.callDepth ≤ m.continuation.depth
  · simp only [if_pos hfull]
  · simp only [if_neg hfull]
    rfl

/-- A nested call enters a frame, above one that stands right behind it. -/
theorem leaves_link (hm : m.continuation.Linked limits) (hf : m.continuation.frames = callers.push g)
    (hlink : g.AfterLink) (target : Nat) :
    Leaves limits callers g.script (perform e limits (.branch .link target) m) := by
  rw [perform_link e limits target hf]
  split
  · exact ⟨⟨g, hf, rfl, ((Continuation.linked_push hf).1 hm).2.1⟩, rfl⟩
  · exact .inr (hm.pushNested hf hlink target)

/-- A return, whether or not it ends the run. -/
theorem leaves_ret (hm : m.continuation.Linked limits) :
    Leaves limits callers script (perform e limits .ret m) := by
  have hretired := hm.retire
  show Leaves limits callers script (retire m)
  unfold retire
  rcases hr : m.continuation.retire with ⟨_ | v, c⟩
  · rw [hr] at hretired
    exact .inr hretired
  · rw [hr] at hretired
    exact hretired

/-- **The step** of an instruction, carried out with the counter moved past it. -/
theorem leaves_perform (he : Modest e limits) (hm : m.continuation.Linked limits)
    (hf : m.continuation.frames = callers.push g) (hd : g.script.program.decode g.counter = .ok i) :
    Leaves limits callers g.script (perform e limits i.opcode (m.advance i.next)) := by
  obtain ⟨hoperands, hflag, hflags, hlinks⟩ := (Continuation.linked_push hf).1 hm
  have hf' := advance_frames i.next hf
  have hm' : (m.advance i.next).continuation.Linked limits :=
    (Continuation.linked_push hf').2 ⟨hoperands, hflag, hflags, hlinks⟩
  rcases i.opcode.staysInFrame_or with hstays | ⟨target, ho⟩ | ⟨keeps, id, ho⟩ | ho
  · have hstanding : Standing callers g.script (m.advance i.next) := ⟨_, hf', rfl, hflag⟩
    have hmeets : Meets (Standing callers g.script) Fault.Untraced
        (perform e limits i.opcode (m.advance i.next)) :=
      (upheldInFrame_standing he).perform hstays (fun _ _ => trivial) _ hstanding
    rcases hr : perform e limits i.opcode (m.advance i.next) with ⟨fault | _ | h, t⟩
    · rw [hr] at hmeets
      exact hmeets
    · rw [hr] at hmeets
      exact .inl hmeets
    · -- only a return or a verb stops a run
      rcases perform_eq_halt hr with ⟨ho, -⟩ | ⟨keeps, id, ho, -⟩
      · rw [ho] at hstays
        cases hstays
      · rw [ho] at hstays
        cases hstays
  · rw [ho]
    exact leaves_link hm' hf' ⟨g.counter, i, target, hd, ho, rfl⟩ target
  · rw [ho]
    exact leaves_call he hm' hf' keeps id
  · rw [ho]
    exact leaves_ret hm'

/-! ## Cycles -/

/-- **Raising.** The instruction at which the innermost frame `g` of `m` stands cannot be decoded, or it
fails, or it leaves too many operands. -/
inductive Raises (e : Engine S) (limits : Limits) (m : Machine S) (g : Frame) :
    Fault.Cause → Machine S → Prop where
  | undecoded {cause : Fault.Cause} :
      g.script.program.decode g.counter = .error cause → Raises e limits m g cause m
  | failed {i : Instruction} {cause : Fault.Cause} {m' : Machine S} :
      g.script.program.decode g.counter = .ok i →
      perform e limits i.opcode (m.advance i.next) = (.error (.ofCause cause), m') →
      Raises e limits m g cause m'
  | overfull {i : Instruction} {m' : Machine S} :
      g.script.program.decode g.counter = .ok i →
      perform e limits i.opcode (m.advance i.next) = (.ok none, m') →
      limits.stackDepth < m'.continuation.operands.height →
      Raises e limits m g (.stackOverflow limits.stackDepth) m'

/-- **Traced exactly.** The cycle that began in `m` raised the fault at the innermost frame `g` and left
`m'`. The trace has an entry for each frame that is live then, outermost first: those below stand right
behind their calls, and the innermost is given the offset of the instruction, wherever its counter is. -/
structure Traced (e : Engine S) (limits : Limits) (f : Fault) (m m' : Machine S) (callers : Stack Frame)
    (g g' : Frame) : Prop where
  executing : m.continuation.frames = callers.push g
  live : m'.continuation.frames = callers.push g'
  script : g'.script = g.script
  raised : Raises e limits m g f.cause m'
  trace : f.trace = callers.toList.map Frame.location ++ [g.location]
  linked : ∀ h ∈ callers.items, h.AfterLink
  backtrace : f.backtrace =
    String.join ((g :: callers.items).zipIdx.map fun (h, n) => s!"\n  #{n}: {h.location.text}")

/-- **A trace is put right** in the one frame that executed. -/
theorem traced_eq {c : Continuation} {below above : List Fault.Location} {l : Fault.Location}
    (hc : c.trace = below ++ l :: above) (hf : f.Untraced) (position : Nat) :
    traced f below.length position c = ⟨f.cause, below ++ { l with position } :: above⟩ := by
  rw [traced, Fault.withTrace, show f.trace = [] from hf, hc, List.modify_eq_take_drop]
  simp

theorem height_eq_length (callers : Stack Frame) :
    callers.height = (callers.toList.map Frame.location).length := by
  simp [Stack.toList, callers.height_eq]

theorem Standing.traced_eq (h : Standing callers g.script m') (hf : f.Untraced) :
    traced f callers.height g.counter m'.continuation =
      ⟨f.cause, callers.toList.map Frame.location ++ [g.location]⟩ := by
  obtain ⟨g', hframes, hscript, -⟩ := h
  have htrace : m'.continuation.trace = callers.toList.map Frame.location ++ [g'.location] := by
    rw [Continuation.trace, hframes, Stack.toList_push, List.map_append]
    rfl
  rw [height_eq_length, Machine.traced_eq htrace hf]
  simp [Frame.location, hscript]

theorem Traced.of_standing (h : Standing callers g.script m') (hm : m.continuation.Linked limits)
    (hf : m.continuation.frames = callers.push g) {cause : Fault.Cause}
    (hraised : Raises e limits m g cause m') :
    ∃ g', Traced e limits ⟨cause, callers.toList.map Frame.location ++ [g.location]⟩ m m' callers g g' := by
  obtain ⟨-, -, -, hlinks⟩ := (Continuation.linked_push hf).1 hm
  obtain ⟨g', hf', hscript, -⟩ := h
  refine ⟨g', hf, hf', hscript, hraised, rfl, hlinks, ?_⟩
  have hreverse : (callers.toList.map Frame.location ++ [g.location]).reverse =
      (g :: callers.items).map Frame.location := by
    simp [Stack.toList]
  rw [Fault.backtrace, hreverse, List.zipIdx_map, List.map_map]
  rfl

/-- **A cycle** that does not fault keeps the frames linked. -/
theorem linked_of_cycle (he : Modest e limits) (hm : m.continuation.Linked limits) {o : Outcome}
    (hc : cycle e limits m = (o, m')) (ho : ∀ f, o ≠ .faulted f) : m'.continuation.Linked limits := by
  rcases cycle_cases e limits m with
    ⟨-, hc'⟩ | ⟨_, _, _, -, -, hc'⟩ | ⟨callers, g, i, hf, hd, hc'⟩
  · rw [hc'] at hc
    cases hc
    exact hm
  · rw [hc'] at hc
    cases hc
    exact absurd rfl (ho _)
  · have hleaves := leaves_perform he hm hf hd
    rw [hc'] at hc
    rcases hr : perform e limits i.opcode (m.advance i.next) with ⟨fault | _ | h, t⟩
    · rw [hr] at hc
      cases hc
      exact absurd rfl (ho _)
    · rw [hr] at hc hleaves
      cases o with
      | next =>
          obtain ⟨heq, hoperands⟩ := settle_eq_next.1 hc
          cases heq
          exact hleaves.elim (fun hstanding => hstanding.linked hm hf hoperands) id
      | halted h =>
          have heq := settle_eq_halted.1 hc
          cases heq
      | faulted f => exact absurd rfl (ho f)
    · rw [hr] at hc hleaves
      cases hc
      exact hleaves

/-- **A cycle that faults** is traced exactly. -/
theorem traced_of_cycle (he : Modest e limits) (hm : m.continuation.Linked limits)
    (hc : cycle e limits m = (.faulted f, m')) : ∃ callers g g', Traced e limits f m m' callers g g' := by
  rcases cycle_cases e limits m with
    ⟨-, hc'⟩ | ⟨callers, g, cause, hf, hd, hc'⟩ | ⟨callers, g, i, hf, hd, hc'⟩
  · rw [hc'] at hc
    cases hc
  · have hstanding : Standing callers g.script m :=
      ⟨g, hf, rfl, ((Continuation.linked_push hf).1 hm).2.1⟩
    rw [hc', hstanding.traced_eq (Fault.untraced_ofCause _)] at hc
    cases hc
    exact ⟨callers, g, Traced.of_standing hstanding hm hf (.undecoded hd)⟩
  · have hleaves := leaves_perform he hm hf hd
    rw [hc'] at hc
    rcases hr : perform e limits i.opcode (m.advance i.next) with ⟨fault | _ | h, t⟩
    · rw [hr] at hc hleaves
      obtain ⟨hstanding, huntraced⟩ := hleaves
      rw [settle, hstanding.traced_eq huntraced] at hc
      cases hc
      obtain ⟨cause, trace⟩ := fault
      obtain rfl : trace = [] := huntraced
      exact ⟨callers, g, Traced.of_standing hstanding hm hf (.failed hd hr)⟩
    · rw [hr] at hc hleaves
      rw [settle] at hc
      split at hc
      · rename_i hover
        rcases hleaves with hstanding | hlinked
        · rw [hstanding.traced_eq (Fault.untraced_ofCause _)] at hc
          cases hc
          exact ⟨callers, g, Traced.of_standing hstanding hm hf (.overfull hd hr hover)⟩
        · -- a call or a return leaves no more operands than there were
          have hoperands := hlinked.operands
          omega
      · cases hc
    · rw [hr] at hc
      cases hc

/-- **With too many operands already,** as a verb can leave them that stops the run, a nested call is carried
out before they are counted. Its fault is traced to the target of the call, with the call itself below. -/
theorem cycle_link_of_overfull (e : Engine S) {target : Nat} (hf : m.continuation.frames = callers.push g)
    (hd : g.script.program.decode g.counter = .ok i) (ho : i.opcode = .branch .link target)
    (hroom : m.continuation.depth < limits.callDepth)
    (hover : limits.stackDepth < m.continuation.operands.height) :
    (cycle e limits m).1 = .faulted ⟨.stackOverflow limits.stackDepth,
      callers.toList.map Frame.location ++ [g.location, ⟨g.script.name, target⟩]⟩ := by
  have hf' := advance_frames i.next hf
  have hdepth : ¬ limits.callDepth ≤ (m.advance i.next).continuation.depth := Nat.not_le.2 hroom
  have htrace : ((m.advance i.next).continuation.pushFrame
      (({ g with counter := i.next } : Frame).nested target)).trace =
        callers.toList.map Frame.location ++ ⟨g.script.name, i.next⟩ :: [⟨g.script.name, target⟩] := by
    simp [Continuation.trace, Continuation.pushFrame, hf', Frame.location, Frame.nested, Frame.enter]
  have hcounted : limits.stackDepth < ((m.advance i.next).continuation.pushFrame
      (({ g with counter := i.next } : Frame).nested target)).operands.height := hover
  rw [cycle_of_decoded hf hd, ho, perform_link e limits target hf', if_neg hdepth, settle,
    if_pos hcounted, height_eq_length, traced_eq htrace (Fault.untraced_ofCause _)]
  rfl

theorem linked_of_continues (he : Modest e limits) (hm : m.continuation.Linked limits)
    (h : Continues e limits m m') : m'.continuation.Linked limits := by
  induction h with
  | start => exact hm
  | cycle _ hc ho ih => exact linked_of_cycle he ih hc ho

end Machine

/-! ## The two engines -/

namespace Transient

open Machine (Modest)

variable {ω : Type} {verbs : VerbTable (Handler ω)}

/-- A verb that leaves it to the run to trace its faults. -/
def Untraced (handler : Handler ω) : Prop := ∀ lent fault, (handler lent).1 = .error fault → fault.Untraced

/-- **The transient engine is modest** if its verbs do not trace their faults. -/
theorem modest (limits : Limits) (hverbs : ∀ v ∈ verbs.verbs, Untraced v.handler) :
    Modest (engine verbs) limits where
  store f address v s fault h := by
    rw [fault_of_store h]
    rfl
  invoke callers script id keeps := by
    intro m hm
    simp only [engine, invoke]
    cases hv : verbs.get id with
    | error cause => exact ⟨hm, rfl⟩
    | ok verb =>
        have huntraced := hverbs verb (VerbTable.mem_of_get hv) ⟨m.continuation.operands, m.rest.host⟩
        rcases hr : verb.handler ⟨m.continuation.operands, m.rest.host⟩ with ⟨fault | v, lent⟩
        · rw [hr] at huntraced
          simp only [hr]
          exact ⟨hm, huntraced fault rfl⟩
        · simp only [hr]
          exact hm
  stops id keeps m m' flow h hflow := by
    -- the engine takes the value of a verb to go on with
    simp only [engine, invoke] at h
    cases hv : verbs.get id with
    | error cause =>
        rw [hv] at h
        cases h
    | ok verb =>
        rw [hv] at h
        rcases hr : verb.handler ⟨m.continuation.operands, m.rest.host⟩ with ⟨fault | v, lent⟩
        · simp only [hr] at h
          cases h
        · simp only [hr] at h
          cases h
          exact absurd rfl (hflow v)

end Transient

namespace Resumable

open Machine (Modest)
open CogMachine.Action (Upholds)

variable {σ : Type} {verbs : VerbTable (Handler σ)} {limits : Limits}

/-- **A verb that leaves the calls alone.** Of the frames it changes only the calling one, whose script stays
and whose result still goes to no operand, and it leaves it to the run to trace its faults. -/
structure LeavesCalls (handler : Handler σ) : Prop where
  frames : ∀ keeps m (callers : Stack Frame) (f : Frame), m.continuation.frames = callers.push f →
    ∃ g : Frame, (handler keeps m).2.continuation.frames = callers.push g ∧
      g.script = f.script ∧ g.pushesResult = f.pushesResult
  untraced : ∀ keeps m fault, (handler keeps m).1 = .error fault → fault.Untraced

/-- **A verb that stops a run within its limit:** where it suspends or restarts, it leaves no more operands than
are allowed if there were no more. The run itself does not count them there. -/
def StopsWithin (limits : Limits) (handler : Handler σ) : Prop :=
  ∀ keeps m m' flow, handler keeps m = (.ok flow, m') → (∀ v, flow ≠ .value v) →
    m.continuation.operands.height ≤ limits.stackDepth →
    m'.continuation.operands.height ≤ limits.stackDepth

/-- A verb that stops no run has nothing to keep to. -/
theorem stopsWithin_of_givesValue {handler : Handler σ} (h : ∀ keeps, GivesValue (handler keeps))
    (limits : Limits) : StopsWithin limits handler := by
  intro keeps m m' flow hflow hstops
  obtain ⟨v, hv⟩ := h keeps m flow (by rw [hflow])
  exact absurd hv (hstops v)

theorem neverRestarts_of_givesValue (h : ∀ v ∈ verbs.verbs, ∀ keeps, GivesValue (v.handler keeps)) :
    NeverRestarts verbs := by
  intro v hv keeps m hrestart
  obtain ⟨_, hvalue⟩ := h v hv keeps m _ hrestart
  cases hvalue

/-- **The resumable engine is modest** if its verbs leave the calls alone, and stop runs within the limit. -/
theorem modest (hverbs : ∀ v ∈ verbs.verbs, LeavesCalls v.handler)
    (hstops : ∀ v ∈ verbs.verbs, StopsWithin limits v.handler) : Modest (engine verbs) limits where
  store f address v w fault h := by
    obtain ⟨cause, -, rfl⟩ := fault_of_store h
    rfl
  invoke callers script := by
    refine upholds_invoke (fun _ => rfl) ?_
    rintro v hv keeps m ⟨f, hf, rfl, hflag⟩
    obtain ⟨g, hg, hscript, hflag'⟩ := (hverbs v hv).frames keeps m callers f hf
    have hstanding : Machine.Standing callers f.script (v.handler keeps m).2 :=
      ⟨g, hg, hscript, hflag'.trans hflag⟩
    have huntraced := (hverbs v hv).untraced keeps m
    rcases hr : v.handler keeps m with ⟨fault | flow, t⟩
    · rw [hr] at hstanding huntraced
      exact ⟨hstanding, huntraced fault rfl⟩
    · rw [hr] at hstanding
      exact hstanding
  stops id keeps m m' flow h := by
    obtain ⟨verb, hv, hhandler⟩ := exists_of_invoke h
    exact hstops verb (VerbTable.mem_of_get hv) keeps m m' flow hhandler

/-- **A loop that began with linked frames** goes on with linked frames. -/
theorem Driven.linked (he : Modest (engine verbs) limits) {m m₀ : Machine (World σ)} {n : Nat}
    (hstart : m₀.continuation.Linked limits) (h : Driven verbs limits m₀ n m) :
    m.continuation.Linked limits := by
  induction h with
  | start => exact hstart
  | resumed w _ hrun ih =>
      have hleft := Machine.linked_of_continues he ih (Machine.Continues.of_answer hrun)
      exact hleft

/-- **An execution that fails** was traced in its last cycle, or would have been restarted once more than is
allowed. -/
theorem traced_of_execute (he : Modest (engine verbs) limits) {m₀ m' : Machine (World σ)}
    (hstart : m₀.continuation.Linked limits) {fuel : Nat} {f : Fault}
    (hrun : execute verbs limits fuel m₀ = some (.error f, m')) :
    ∃ m, Machine.Continues (engine verbs) limits m₀ m ∧
      ((Machine.cycle (engine verbs) limits m = (.faulted f, m') ∧
          ∃ callers g g', Machine.Traced (engine verbs) limits f m m' callers g g') ∨
        Machine.cycle (engine verbs) limits m = (.halted .restarting, m') ∧
          f = (Fault.ofCause (.restartLimit limits.restarts)).withTrace m'.continuation.trace) := by
  obtain ⟨b, m, hcont, hends⟩ := Machine.Continues.of_execute hrun
  cases hends with
  | faulted hc =>
      have hlinked := Machine.linked_of_continues he hstart hcont
      exact ⟨m, hcont, .inl ⟨hc, Machine.traced_of_cycle he hlinked hc⟩⟩
  | exhausted hc => exact ⟨m, hcont, .inr ⟨hc, rfl⟩⟩

end Resumable

theorem Instance.Opens.linked {i : Instance} {c : Continuation} (h : i.Opens c) (limits : Limits) :
    c.Linked limits := by
  obtain ⟨context, h⟩ := h
  obtain ⟨entry, rfl⟩ := OpensWith.eq_ofFrame h
  exact Continuation.linked_ofFrame limits rfl

/-! ## Whole runs -/

open Resumable (quietVerbs oneMemory)

/-- **With verbs that always answer a value** no execution suspends or restarts, so nothing is asked of the
operands that they leave. A continuation that is opened on an instance and executed fails in its last cycle, and
the fault is traced exactly. -/
theorem Resumable.traced_of_givesValue {σ : Type} {verbs : VerbTable (Handler σ)} {limits : Limits}
    {fuel : Nat} {i : Instance} {c : Continuation} {w : World σ} {m' : Machine (World σ)} {f : Fault}
    (hverbs : ∀ v ∈ verbs.verbs, LeavesCalls v.handler)
    (hvalue : ∀ v ∈ verbs.verbs, ∀ keeps, GivesValue (v.handler keeps)) (hopens : i.Opens c)
    (hrun : execute verbs limits fuel ⟨c, w⟩ = some (.error f, m')) :
    ∃ m callers g g', Machine.Continues (engine verbs) limits ⟨c, w⟩ m ∧
      Machine.cycle (engine verbs) limits m = (.faulted f, m') ∧
      Machine.Traced (engine verbs) limits f m m' callers g g' := by
  have hmodest := modest hverbs fun v hv => stopsWithin_of_givesValue (hvalue v hv) limits
  obtain ⟨m, hcont, ⟨hc, callers, g, g', htraced⟩ | ⟨hc, -⟩⟩ :=
    traced_of_execute hmodest (hopens.linked limits) hrun
  · exact ⟨m, callers, g, g', hcont, hc, htraced⟩
  · exact absurd hc (cycle_ne_restarting (neverRestarts_of_givesValue hvalue))

/-- The third nested call is refused, and is the innermost entry at its own offset. -/
def refused : Fault := ⟨.callStackOverflow 3, [⟨"climbing", 5⟩, ⟨"climbing", 5⟩, ⟨"climbing", 0⟩]⟩

end CogMachine
