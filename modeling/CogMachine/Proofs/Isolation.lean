import CogMachine.Machine.Instance
import CogMachine.Machine.SystemVerbs
import CogMachine.Proofs.Lockstep
import CogMachine.Proofs.Reachable
import Mathlib.Data.List.Nodup
import Mathlib.Logic.Function.Basic

/-!
# Isolation of instances

A host opens continuations on several instances and executes them in turns. Each instance has a memory of
its own, and the frames of its continuations go on using that one, so what happens to an instance is the
same whether or not the others are executed in between.

- `Confined` verbs work on the operands and on the calling frame, and on nothing that is shared.
- `isolating`: an execution in which all frames use one memory, seen where there is no other. It shows
  that such an execution reads and writes only that one (`execute_isolated`).
- `play` is a schedule of calls, and `instances_isolated` compares it with what is left of it when the
  calls on other instances are taken out.
-/

namespace CogMachine

/-! ## One of the memories -/

namespace Memories

variable {ms ms' : Memories} {id : MemoryId}

/-- **One memory** under its id, without the others. -/
def only (ms : Memories) (id : MemoryId) : Memories :=
  match ms.get? id with
  | none => empty
  | some m => ⟨(Array.replicate id.number .empty).push m⟩

theorem get?_only (ms : Memories) (id : MemoryId) : (ms.only id).get? id = ms.get? id := by
  unfold only
  cases ms.get? id with
  | none => rfl
  | some m =>
      simp only [get?, Array.getElem?_push, Array.size_replicate]
      exact if_pos trivial

theorem only_congr (h : ms.get? id = ms'.get? id) : ms.only id = ms'.only id := by
  unfold only
  rw [h]

theorem get?_set_of_ne {j : MemoryId} (h : j ≠ id) (ms : Memories) (i : Nat) (v : Value) :
    (ms.set id i v).get? j = ms.get? j := by
  have hnumber : id.number ≠ j.number := by
    intro hsame
    obtain ⟨n⟩ := id
    obtain ⟨k⟩ := j
    exact h (congrArg MemoryId.mk hsame.symm)
  simp only [get?, set, Array.getElem?_modify, if_neg hnumber]

theorem only_set (ms : Memories) (id : MemoryId) (i : Nat) (v : Value) :
    (ms.set id i v).only id = (ms.only id).set id i v := by
  unfold only
  rw [get?_set_self]
  cases ms.get? id with
  | none => rfl
  | some m =>
      simp only [Option.map_some, set, mk.injEq]
      apply Array.ext_getElem?
      intro j
      simp only [Array.getElem?_modify, Array.getElem?_push, Array.size_replicate]
      by_cases hj : id.number = j
      · subst hj
        simp
      · rw [if_neg (Ne.symm hj), if_neg (Ne.symm hj), if_neg hj]

/-- Which memory is bound to an id is told by the look-up. -/
theorem bound_congr (h : ms.get? id = ms'.get? id) : ms.bound (some id) = ms'.bound (some id) := by
  unfold bound
  rw [Option.bind_some, Option.bind_some, h]

theorem load_congr (h : ms.get? id = ms'.get? id) (address : Int) :
    ms.load (some id) address = ms'.load (some id) address := by
  unfold load
  rw [bound_congr h]

theorem locate_congr (h : ms.get? id = ms'.get? id) (address : Int) :
    ms.locate (some id) address = ms'.locate (some id) address := by
  unfold locate
  rw [bound_congr h]

/-- What is located is in the memory with that id. -/
theorem fst_of_locate {address : Int} {j : MemoryId} {i : Nat}
    (h : ms.locate (some id) address = .ok (j, i)) : j = id := by
  cases hm : ms.get? id with
  | none =>
      rw [locate, bound, Option.bind_some, hm] at h
      cases h
  | some m =>
      rw [locate_of_get? hm] at h
      obtain ⟨_, -, heq⟩ := Attempt.map_eq_ok h
      cases heq
      rfl

end Memories

/-! ## Instances and what is opened on them -/

namespace Instance

variable {scripts : List Script} {ms : Memories} {a b : Instance} {c : Continuation}

/-- **Instantiating** scripts one after the other, each as often as it is listed. -/
def createAll : List Script → Memories → List Instance × Memories
  | [], ms => ([], ms)
  | script :: scripts, ms =>
    let (a, ms) := create script ms
    let (as, ms) := createAll scripts ms
    (a :: as, ms)

theorem numbers_createAll (scripts : List Script) (ms : Memories) :
    (createAll scripts ms).1.map (·.memory.number) = List.range' ms.all.size scripts.length := by
  induction scripts generalizing ms with
  | nil => rfl
  | cons script scripts ih =>
      have hsize : (create script ms).2.all.size = ms.all.size + 1 := Array.size_push _
      have hrest := ih (create script ms).2
      rw [hsize] at hrest
      rw [List.length_cons, List.range'_succ, ← hrest]
      rfl

/-- **Instances differ** in their memories. -/
theorem eq_of_memory (ha : a ∈ (createAll scripts ms).1) (hb : b ∈ (createAll scripts ms).1)
    (h : a.memory = b.memory) : a = b := by
  have hnodup : ((createAll scripts ms).1.map (·.memory.number)).Nodup := by
    rw [numbers_createAll]
    exact List.nodup_range'
  exact List.inj_on_of_nodup_map hnodup ha hb (congrArg MemoryId.number h)

/-- **Opening** a continuation on an instance, at an offset or for a message. -/
def Opens (a : Instance) (c : Continuation) : Prop :=
  ∃ context, (∃ entry, a.continuationAt entry context = .ok c) ∨
    ∃ message, a.continuationFor message context = .ok c

/-- **Opening** a continuation with what a message hands over. -/
def OpensWith (a : Instance) (context : Context) (c : Continuation) : Prop :=
  (∃ entry, a.continuationAt entry context = .ok c) ∨
    ∃ message, a.continuationFor message context = .ok c

theorem eq_of_frameAt {entry : Nat} {context : Context} {f : Frame}
    (h : a.frameAt entry context = .ok f) :
    f = { Frame.enter a.script entry with memory := some a.memory, context := context } := by
  obtain ⟨_, -, h⟩ := Attempt.bind_eq_ok h
  cases h
  rfl

/-- **What is opened** has one frame, on the script and the memory of the instance. -/
theorem OpensWith.eq_ofFrame {context : Context} (h : a.OpensWith context c) : ∃ entry, c =
    .ofFrame { Frame.enter a.script entry with memory := some a.memory, context := context } := by
  obtain ⟨entry, h⟩ | ⟨message, h⟩ := h
  · obtain ⟨f, hf, rfl⟩ := Attempt.map_eq_ok h
    rw [eq_of_frameAt hf]
    exact ⟨entry, rfl⟩
  · obtain ⟨f, hf, rfl⟩ := Attempt.map_eq_ok h
    obtain ⟨entry, -, hf⟩ := Attempt.bind_eq_ok hf
    rw [eq_of_frameAt hf]
    exact ⟨entry, rfl⟩

theorem Opens.every (h : a.Opens c) : c.Every fun f => f.memory = some a.memory := by
  obtain ⟨context, h⟩ := h
  obtain ⟨entry, rfl⟩ := OpensWith.eq_ofFrame h
  exact Continuation.every_ofFrame fun _ => rfl

end Instance

namespace Resumable

variable {σ : Type} {verbs : VerbTable (Handler σ)} {limits : Limits} {id : MemoryId}

/-! ## Verbs that share nothing -/

/-- **A confined verb.** It changes the operands, and in the calling frame what the message handed to it,
the return register and the flags. It may answer anything, but does not go by memories or services. -/
structure Confined (handler : Handler σ) : Prop where
  rest : ∀ keeps c w w', handler keeps ⟨c, w'⟩ =
    ((handler keeps ⟨c, w⟩).1, ⟨(handler keeps ⟨c, w⟩).2.continuation, w'⟩)
  frames : ∀ keeps m, ∃ context returned savesResult pushesResult,
    (handler keeps m).2.continuation.frames = m.continuation.frames.modifyTop fun f =>
      { f with context, returned, savesResult, pushesResult }

/-- A verb that leaves the frames changes the calling frame to itself. -/
theorem frames_self (frames : Stack Frame) : ∃ context returned savesResult pushesResult,
    frames = frames.modifyTop fun f => { f with context, returned, savesResult, pushesResult } := by
  rcases frames.eq_empty_or_push with rfl | ⟨callers, f, rfl⟩
  · exact ⟨.empty, none, false, false, rfl⟩
  · exact ⟨f.context, f.returned, f.savesResult, f.pushesResult, rfl⟩

theorem Confined.of_frames {handler : Handler σ}
    (hrest : ∀ keeps c w w', handler keeps ⟨c, w'⟩ =
      ((handler keeps ⟨c, w⟩).1, ⟨(handler keeps ⟨c, w⟩).2.continuation, w'⟩))
    (hframes : ∀ keeps m, (handler keeps m).2.continuation.frames = m.continuation.frames) :
    Confined handler where
  rest := hrest
  frames keeps m := by
    rw [hframes]
    exact frames_self _

/-- A verb that answers with something of the calling frame. -/
theorem confined_reading (g : Frame → Value) :
    Confined (σ := σ) fun _ => callingFrame >>= fun f => return .value (g f) := by
  apply Confined.of_frames
  · intro keeps c w w'
    simp only [Action.bind_eq, callingFrame]
    cases c.top? <;> rfl
  · intro keeps m
    simp only [Action.bind_eq, callingFrame]
    cases m.continuation.top? <;> rfl

/-- A verb that goes on as a confined one once it has popped an operand. -/
theorem confined_pop_bind {k : Value → Handler σ} (h : ∀ v, Confined (k v)) :
    Confined fun keeps => popOperand >>= fun v => k v keeps where
  rest keeps c w w' := by
    simp only [Action.bind_eq, popOperand, Machine.pop]
    cases c.operands.pop with
    | error cause => rfl
    | ok popped => exact (h popped.1).rest keeps _ w w'
  frames keeps m := by
    simp only [Action.bind_eq, popOperand, Machine.pop]
    cases m.continuation.operands.pop with
    | error cause => exact frames_self _
    | ok popped => exact (h popped.1).frames keeps _

theorem confined_getParam : Confined (σ := σ) getParam := by
  apply confined_pop_bind
  intro v
  by_cases hn : v.asInt < 0
  · simp only [hn]
    exact .of_frames (fun _ _ _ _ => rfl) fun _ _ => rfl
  · simp only [hn]
    exact .of_frames (fun _ _ _ _ => rfl) fun _ _ => rfl

theorem confined_setReturn : Confined (σ := σ) setReturn := by
  apply confined_pop_bind
  intro v
  constructor
  · intro keeps c w w'
    simp only [modifyCaller, callingFrame, Action.bind_eq]
    cases c.top? <;> rfl
  · rintro keeps ⟨⟨frames, operands⟩, w⟩
    rcases frames.eq_empty_or_push with rfl | ⟨callers, f, rfl⟩
    · exact frames_self _
    · exact ⟨f.context, some v, f.savesResult, f.pushesResult, rfl⟩

theorem confined_suspend : Confined (σ := σ) suspend := by
  apply Confined.of_frames
  · intro keeps c w w'
    rfl
  · intro keeps m
    rfl

/-- **The system verbs** are confined. -/
theorem confined_systemVerbs : ∀ v ∈ (addSystemVerbs (σ := σ) .empty).verbs, Confined v.handler := by
  have hall : (addSystemVerbs (σ := σ) .empty).verbs = [⟨"getsenderref", getSender⟩,
      ⟨"getsourceref", getSource⟩, ⟨"getparam", getParam⟩, ⟨"returnex", setReturn⟩,
      ⟨"suspend", suspend⟩] := rfl
  rw [hall]
  simp only [List.forall_mem_cons, List.not_mem_nil, false_implies, implies_true, and_true]
  exact ⟨confined_reading _, confined_reading _, confined_getParam, confined_setReturn, confined_suspend⟩

/-! ## Executions that use one memory -/

/-- **Isolating.** All frames use the memory `id`; other memories stay as they are in `ms`; and the view
shows that memory only, and services that are always the same. -/
def isolating (id : MemoryId) (ms : Memories) (services : σ) : Comparison (World σ) (World σ) where
  frame f := f.memory = some id
  rest w := ∀ j, j ≠ id → w.memories.get? j = ms.get? j
  view w := ⟨w.memories.only id, services⟩

theorem Confined.every {handler : Handler σ} (h : Confined handler) (keeps : Bool) {m : Machine (World σ)}
    (hm : m.continuation.Every fun f => f.memory = some id) :
    (handler keeps m).2.continuation.Every fun f => f.memory = some id := by
  obtain ⟨context, returned, savesResult, pushesResult, hframes⟩ := h.frames keeps m
  have hmodified : (m.continuation.modifyTop fun f =>
      { f with context, returned, savesResult, pushesResult }).Every fun f => f.memory = some id :=
    hm.modifyTop fun _ hf => hf
  intro f hf
  rw [hframes] at hf
  exact hmodified f hf

theorem lawful_isolating (hverbs : ∀ v ∈ verbs.verbs, Confined v.handler) (ms : Memories) (services : σ) :
    (isolating id ms services).Lawful (engine verbs) (engine verbs) limits limits where
  inherited := inherited_memory id
  load w f address _ hf := by
    have hmemory : f.memory = some id := hf
    show (w.memories.only id).load f.memory address = w.memories.load f.memory address
    rw [hmemory]
    exact Memories.load_congr (Memories.get?_only _ _) address
  store w f address v hw hf := by
    obtain ⟨memories, held⟩ := w
    have hmemory : f.memory = some id := hf
    have hlocate := Memories.locate_congr (Memories.get?_only memories id) address
    simp only [engine, isolating, hmemory, hlocate]
    cases hl : memories.locate (some id) address with
    | error cause => exact ⟨hw, rfl⟩
    | ok located =>
        obtain ⟨j, i⟩ := located
        obtain rfl := Memories.fst_of_locate hl
        refine ⟨?_, ?_⟩
        · intro k hk
          exact (Memories.get?_set_of_ne hk memories i v).trans (hw k hk)
        · rw [Memories.only_set]
  invoke keeps verb := by
    apply Comparison.carries_of_eq
    rintro ⟨c, w⟩ hm
    simp only [engine, invoke, Comparison.state]
    cases hv : verbs.get verb with
    | error cause => exact ⟨hm, rfl⟩
    | ok v =>
        have hconfined := hverbs v (VerbTable.mem_of_get hv)
        have hrest : (v.handler keeps ⟨c, w⟩).2.rest = w := by
          rw [hconfined.rest keeps c w w]
        refine ⟨⟨hconfined.every keeps hm.1, ?_⟩, ?_⟩
        · simp only [hrest]
          exact hm.2
        · simp only [hrest]
          exact hconfined.rest keeps c w _
  depth := .refl _ _
  height := .refl _ _

/-- The view does not lose anything, so it shows an execution as it is. -/
theorem execute_isolating (hverbs : ∀ v ∈ verbs.verbs, Confined v.handler) (limits : Limits) (fuel : Nat)
    (m : Machine (World σ)) (ms : Memories) (services : σ) (hm : (isolating id ms services).Holds m) :
    (∀ r m', execute verbs limits fuel m = some (r, m') → (isolating id ms services).Holds m') ∧
      execute verbs limits fuel ((isolating id ms services).state m) =
        (execute verbs limits fuel m).map fun (r, m') => (r, (isolating id ms services).state m') := by
  rcases Comparison.execute (lawful_isolating hverbs ms services) (.refl _ _) fuel hm with
    ⟨_, _, -, hlost⟩ | hshown
  · exact absurd hlost not_false
  · exact hshown

/-- What is to be seen of an outcome where there is one memory only. -/
def shown (id : MemoryId) (outcome : Except Fault Answer × Machine (World σ)) :
    Except Fault Answer × Continuation × Option Memory :=
  (outcome.1, outcome.2.continuation, outcome.2.rest.memories.get? id)

/-- **An execution is isolated.** If all frames use one memory they go on using it, the other memories stay,
and what comes of it depends on the continuation and on that memory only. -/
theorem execute_isolated (hverbs : ∀ v ∈ verbs.verbs, Confined v.handler) (limits : Limits) (fuel : Nat)
    {c : Continuation} (hc : c.Every fun f => f.memory = some id) (w : World σ) :
    (∀ r m, execute verbs limits fuel ⟨c, w⟩ = some (r, m) →
      (m.continuation.Every fun f => f.memory = some id) ∧
      ∀ j, j ≠ id → m.rest.memories.get? j = w.memories.get? j) ∧
    ∀ w' : World σ, w'.memories.get? id = w.memories.get? id →
      (execute verbs limits fuel ⟨c, w'⟩).map (shown id) =
        (execute verbs limits fuel ⟨c, w⟩).map (shown id) := by
  constructor
  · exact (execute_isolating hverbs limits fuel ⟨c, w⟩ w.memories w.services ⟨hc, fun _ _ => rfl⟩).1
  · intro w' hsame
    have hshown : ∀ u : World σ, (execute verbs limits fuel ⟨c, u⟩).map (shown id) =
        (execute verbs limits fuel ⟨c, ⟨u.memories.only id, w.services⟩⟩).map (shown id) := by
      intro u
      have hview := (execute_isolating hverbs limits fuel ⟨c, u⟩ u.memories w.services
        ⟨hc, fun _ _ => rfl⟩).2
      have hstate : (isolating id u.memories w.services).state ⟨c, u⟩ =
          ⟨c, ⟨u.memories.only id, w.services⟩⟩ := rfl
      rw [hstate] at hview
      rw [hview, Option.map_map]
      congr 1
      funext ⟨r, m⟩
      simp only [Function.comp, shown, Comparison.state, isolating, Memories.get?_only]
    rw [hshown w', hshown w, Memories.only_congr hsame]

/-! ## Schedules -/

/-- **A stage:** the continuations that a host has opened, and what they share. -/
structure Stage (ι σ : Type) where
  continuations : ι → Continuation
  world : World σ

/-- **A call** executes one of the continuations. -/
structure Call (ι σ : Type) where
  on : ι
  verbs : VerbTable (Handler σ)
  limits : Limits
  fuel : Nat

/-- **What a call came to:** its answer or fault, the continuation afterwards, and the memory of its
instance. -/
structure Report (ι : Type) where
  on : ι
  result : Except Fault Answer
  continuation : Continuation
  memory : Option Memory

section Schedules

variable {ι : Type} [DecidableEq ι]

/-- **Carrying out** a call on a continuation that an instance owns. There is no report if the fuel does not
suffice. -/
def Call.perform (owner : ι → Instance) (c : Call ι σ) (s : Stage ι σ) :
    Option (Report ι × Stage ι σ) :=
  (execute c.verbs c.limits c.fuel ⟨s.continuations c.on, s.world⟩).map fun (result, m) =>
    (⟨c.on, result, m.continuation, m.rest.memories.get? (owner c.on).memory⟩,
      ⟨Function.update s.continuations c.on m.continuation, m.rest⟩)

/-- **A schedule** carries out calls one after the other. -/
def play (owner : ι → Instance) :
    List (Call ι σ) → Stage ι σ → Option (List (Report ι) × Stage ι σ)
  | [], s => some ([], s)
  | c :: cs, s => do
    let (r, s) ← c.perform owner s
    let (rs, s) ← play owner cs s
    return (r :: rs, s)

/-- A call lends confined verbs only. -/
def Call.Confined (c : Call ι σ) : Prop := ∀ v ∈ c.verbs.verbs, Resumable.Confined v.handler

/-- **Bound continuations.** All frames of each use the memory of its instance. -/
def Stage.Bound (owner : ι → Instance) (s : Stage ι σ) : Prop :=
  ∀ i, (s.continuations i).Every fun f => f.memory = some (owner i).memory

/-- **Agreement** on an instance: on its continuations and on its memory. -/
structure Stage.Agree (owner : ι → Instance) (a : Instance) (s t : Stage ι σ) : Prop where
  continuations : ∀ i, owner i = a → t.continuations i = s.continuations i
  memory : t.world.memories.get? a.memory = s.world.memories.get? a.memory

variable {owner : ι → Instance} {a : Instance} {s s' t : Stage ι σ} {c : Call ι σ} {r : Report ι}

/-- What a call leaves is told by its report, but for other memories and for the services. -/
theorem Call.perform_eq_some (h : c.perform owner s = some (r, s')) :
    r.on = c.on ∧ s'.continuations = Function.update s.continuations c.on r.continuation ∧
      s'.world.memories.get? (owner c.on).memory = r.memory := by
  obtain ⟨⟨result, m⟩, -, heq⟩ := Option.map_eq_some_iff.mp h
  cases heq
  exact ⟨rfl, rfl, rfl⟩

/-- A call leaves all continuations bound, and all other memories as they were. -/
theorem Call.bound (hc : c.Confined) (hs : s.Bound owner) (h : c.perform owner s = some (r, s')) :
    s'.Bound owner ∧ ∀ j, j ≠ (owner c.on).memory →
      s'.world.memories.get? j = s.world.memories.get? j := by
  obtain ⟨⟨result, m⟩, hrun, heq⟩ := Option.map_eq_some_iff.mp h
  cases heq
  obtain ⟨hevery, hothers⟩ := (execute_isolated hc c.limits c.fuel (hs c.on) s.world).1 result m hrun
  refine ⟨?_, hothers⟩
  intro i
  by_cases hi : i = c.on
  · subst hi
    simp only [Function.update_self]
    exact hevery
  · simp only [Function.update_of_ne hi]
    exact hs i

/-- **A call on the instance** comes to the same on stages that agree on it. -/
theorem Call.reports_agree (hc : c.Confined) (hs : s.Bound owner) (hagree : s.Agree owner (owner c.on) t) :
    (c.perform owner t).map Prod.fst = (c.perform owner s).map Prod.fst := by
  have hsame := (execute_isolated hc c.limits c.fuel (hs c.on) s.world).2 t.world hagree.memory
  have hreport : ∀ u : Stage ι σ, (c.perform owner u).map Prod.fst =
      ((execute c.verbs c.limits c.fuel ⟨u.continuations c.on, u.world⟩).map
        (shown (owner c.on).memory)).map fun (r, k, memory) => ⟨c.on, r, k, memory⟩ := by
    intro u
    rw [Call.perform, Option.map_map, Option.map_map]
    rfl
  rw [hreport t, hreport s, hagree.continuations c.on rfl, hsame]

theorem Call.agree (hc : c.Confined) (hs : s.Bound owner) (hagree : s.Agree owner (owner c.on) t)
    (h : c.perform owner s = some (r, s')) :
    ∃ t', c.perform owner t = some (r, t') ∧ s'.Agree owner (owner c.on) t' := by
  have hreports := Call.reports_agree hc hs hagree
  rw [h, Option.map_some] at hreports
  obtain ⟨⟨r', t'⟩, ht, rfl⟩ := Option.map_eq_some_iff.mp hreports
  obtain ⟨-, hcontinuations, hmemory⟩ := Call.perform_eq_some h
  obtain ⟨-, hcontinuations', hmemory'⟩ := Call.perform_eq_some ht
  refine ⟨t', ht, ?_, hmemory'.trans hmemory.symm⟩
  intro i hi
  rw [hcontinuations, hcontinuations']
  by_cases hon : i = c.on
  · subst hon
    simp only [Function.update_self]
  · simp only [Function.update_of_ne hon]
    exact hagree.continuations i hi

/-- **A call on another instance** changes nothing that stages agree on. -/
theorem Call.bystander (hc : c.Confined) (hs : s.Bound owner) (hagree : s.Agree owner a t)
    (hother : owner c.on ≠ a) (hdistinct : (owner c.on).memory ≠ a.memory)
    (h : c.perform owner s = some (r, s')) : s'.Agree owner a t := by
  obtain ⟨-, hcontinuations, -⟩ := Call.perform_eq_some h
  obtain ⟨-, hothers⟩ := Call.bound hc hs h
  refine ⟨?_, hagree.memory.trans (hothers _ hdistinct.symm).symm⟩
  intro i hi
  have hon : i ≠ c.on := by
    rintro rfl
    exact hother hi
  rw [hcontinuations, Function.update_of_ne hon]
  exact hagree.continuations i hi

theorem play_cons {calls : List (Call ι σ)} {reports : List (Report ι)}
    (h : play owner (c :: calls) s = some (reports, s')) :
    ∃ r s₁ rest, c.perform owner s = some (r, s₁) ∧ play owner calls s₁ = some (rest, s') ∧
      reports = r :: rest := by
  rw [play] at h
  obtain ⟨⟨r, s₁⟩, hperform, h⟩ := Option.bind_eq_some_iff.mp h
  obtain ⟨⟨rest, s₂⟩, hplay, h⟩ := Option.bind_eq_some_iff.mp h
  cases h
  exact ⟨r, s₁, rest, hperform, hplay, rfl⟩

/-- **Schedules** agree on an instance with what is left of them without the calls on others. -/
theorem play_agree (hdistinct : ∀ i, owner i ≠ a → (owner i).memory ≠ a.memory)
    {calls : List (Call ι σ)} {reports : List (Report ι)} (hverbs : ∀ c ∈ calls, c.Confined)
    (hs : s.Bound owner) (hagree : s.Agree owner a t) (h : play owner calls s = some (reports, s')) :
    s'.Bound owner ∧ ∃ t', play owner (calls.filter fun c => owner c.on = a) t =
      some (reports.filter fun r => owner r.on = a, t') ∧ s'.Agree owner a t' := by
  induction calls generalizing s t reports with
  | nil =>
      cases h
      exact ⟨hs, t, rfl, hagree⟩
  | cons c calls ih =>
      obtain ⟨hc, hcalls⟩ := List.forall_mem_cons.mp hverbs
      obtain ⟨r, s₁, rest, hperform, hplay, rfl⟩ := play_cons h
      obtain ⟨hbound, -⟩ := Call.bound hc hs hperform
      obtain ⟨hon, -, -⟩ := Call.perform_eq_some hperform
      by_cases howner : owner c.on = a
      · subst howner
        obtain ⟨t₁, hperform', hagree₁⟩ := Call.agree hc hs hagree hperform
        obtain ⟨hbound', t', hplay', hagree'⟩ := ih hcalls hbound hagree₁ hplay
        refine ⟨hbound', t', ?_, hagree'⟩
        rw [List.filter_cons_of_pos (by simp), List.filter_cons_of_pos (by simp [hon]), play, hperform']
        simp only [Option.bind_eq_bind, Option.bind_some, hplay']
        rfl
      · have hagree₁ := Call.bystander hc hs hagree howner (hdistinct c.on howner) hperform
        rw [List.filter_cons_of_neg (by simp [howner]), List.filter_cons_of_neg (by simp [hon, howner])]
        exact ih hcalls hbound hagree₁ hplay

/-- **The memory of an instance** after some reports: the one that the last report of a call on one of its
continuations tells. -/
def heldAfter (owner : ι → Instance) (a : Instance) (held : Option Memory) (reports : List (Report ι)) :
    Option Memory :=
  reports.foldl (fun held r => if owner r.on = a then r.memory else held) held

theorem play_memory (hdistinct : ∀ i, owner i ≠ a → (owner i).memory ≠ a.memory)
    {calls : List (Call ι σ)} {reports : List (Report ι)} (hverbs : ∀ c ∈ calls, c.Confined)
    (hs : s.Bound owner) (h : play owner calls s = some (reports, s')) :
    s'.world.memories.get? a.memory =
      heldAfter owner a (s.world.memories.get? a.memory) reports := by
  induction calls generalizing s reports with
  | nil =>
      cases h
      rfl
  | cons c calls ih =>
      obtain ⟨hc, hcalls⟩ := List.forall_mem_cons.mp hverbs
      obtain ⟨r, s₁, rest, hperform, hplay, rfl⟩ := play_cons h
      obtain ⟨hbound, hothers⟩ := Call.bound hc hs hperform
      obtain ⟨hon, -, hmemory⟩ := Call.perform_eq_some hperform
      rw [ih hcalls hbound hplay, heldAfter, heldAfter, List.foldl_cons, hon]
      by_cases howner : owner c.on = a
      · rw [if_pos howner, ← hmemory, howner]
      · rw [if_neg howner, hothers _ (hdistinct c.on howner).symm]

/-- **Bound for good.** In all states of an execution the frames use the one memory, and the other memories
are as they were. -/
theorem continues_isolated (hverbs : ∀ v ∈ verbs.verbs, Confined v.handler) {m m' : Machine (World σ)}
    (hm : m.continuation.Every fun f => f.memory = some id)
    (h : Machine.Continues (engine verbs) limits m m') :
    (m'.continuation.Every fun f => f.memory = some id) ∧
      ∀ j, j ≠ id → m'.rest.memories.get? j = m.rest.memories.get? j := by
  have hholds : (isolating id m.rest.memories m.rest.services).Holds m' := by
    induction h with
    | start => exact ⟨hm, fun _ _ => rfl⟩
    | cycle _ hc _ ih =>
        rcases Comparison.cycle (lawful_isolating hverbs _ _) ih with ⟨_, _, -, hlost⟩ | ⟨hnext, -⟩
        · exact absurd hlost not_false
        · rwa [hc] at hnext
  exact hholds

/-- **Instances do not interfere.** Take any instances, continuations opened on them, and a schedule of calls
that lend confined verbs only. Without the calls on other instances, every call on an instance comes to the
same report: the same result, the same continuation afterwards and the same memory. So does every further
call, also if it does not end. The continuations of one instance do share: all their frames use its memory
and no other, in every state that they come to, and each call finds there what the last one left. -/
theorem instances_isolated {scripts : List Script} {ms : Memories}
    (howner : ∀ i, owner i ∈ (Instance.createAll scripts ms).1)
    (hopened : ∀ i, (owner i).Opens (s.continuations i)) {calls : List (Call ι σ)}
    (hverbs : ∀ c ∈ calls, c.Confined) {reports : List (Report ι)}
    (hplay : play owner calls s = some (reports, s')) (ha : a ∈ (Instance.createAll scripts ms).1) :
    (∃ t, play owner (calls.filter fun c => owner c.on = a) s =
        some (reports.filter fun r => owner r.on = a, t) ∧
      s'.Agree owner a t ∧
      ∀ c : Call ι σ, c.Confined → owner c.on = a →
        (c.perform owner t).map Prod.fst = (c.perform owner s').map Prod.fst) ∧
    s'.world.memories.get? a.memory = heldAfter owner a (s.world.memories.get? a.memory) reports ∧
    ∀ c : Call ι σ, c.Confined → owner c.on = a →
      ∀ m, Machine.Continues (engine c.verbs) c.limits ⟨s'.continuations c.on, s'.world⟩ m →
        (∀ f ∈ m.continuation.frames.items, f.memory = some a.memory) ∧
        ∀ j, j ≠ a.memory → m.rest.memories.get? j = s'.world.memories.get? j := by
  have hdistinct : ∀ i, owner i ≠ a → (owner i).memory ≠ a.memory :=
    fun i => mt (Instance.eq_of_memory (howner i) ha)
  have hs : s.Bound owner := fun i => (hopened i).every
  obtain ⟨hs', t, hfiltered, hagree⟩ := play_agree hdistinct hverbs hs ⟨fun _ _ => rfl, rfl⟩ hplay
  refine ⟨⟨t, hfiltered, hagree, ?_⟩, play_memory hdistinct hverbs hs hplay, ?_⟩
  · rintro c hc rfl
    exact Call.reports_agree hc hs' hagree
  · rintro c hc rfl m hm
    exact continues_isolated hc (hs' c.on) hm

end Schedules
/-- A script that counts in its memory, waits, and tells the number. -/
def tallying : Script :=
  { Script.ofProgram "tally" (.ofBytes ([.memory .load 0, .push (.int 1), .binary .add,
      .memory .store 0, .call false ⟨4⟩, .memory .load 0, .ret].flatMap Opcode.encode)) with
    symbols := ⟨[.ofType "count" .int 0]⟩ }

/-- Two instances of it, of which the first has two continuations. -/
def tallyOwner (i : Fin 3) : Instance := ⟨tallying, ⟨if i = 2 then 1 else 0⟩⟩

def tallyStage : Stage (Fin 3) Unit where
  continuations i := .ofFrame { Frame.enter tallying 0 with memory := some (tallyOwner i).memory }
  world := ⟨(Instance.createAll [tallying, tallying] .empty).2, ()⟩

/-- All three wait, and the first and the last are resumed. -/
def tallyCalls : List (Call (Fin 3) Unit) :=
  [0, 2, 1, 0, 2].map fun i => ⟨i, addSystemVerbs .empty, .standard, 10⟩

/-- The first instance counts to two, with and without the calls on the other. -/
theorem instances_isolated_tallying :
    (play tallyOwner tallyCalls tallyStage).map (fun p => p.1.map (·.result)) =
      some [.ok (.suspended .void), .ok (.suspended .void), .ok (.suspended .void),
        .ok (.completed (.int 2)), .ok (.completed (.int 1))] ∧
    (play tallyOwner (tallyCalls.filter fun c => tallyOwner c.on = tallyOwner 0)
        tallyStage).map (fun p => p.1.map fun r => (r.on, r.result)) =
      some [(0, .ok (.suspended .void)), (1, .ok (.suspended .void)), (0, .ok (.completed (.int 2)))] := by
  have hresults : (play tallyOwner tallyCalls tallyStage).map
      (fun p => p.1.map fun r => (r.on, r.result)) =
        some [(0, .ok (.suspended .void)), (2, .ok (.suspended .void)), (1, .ok (.suspended .void)),
          (0, .ok (.completed (.int 2))), (2, .ok (.completed (.int 1)))] := by
    decide +kernel
  obtain ⟨⟨reports, s'⟩, hplay, hreports⟩ := Option.map_eq_some_iff.mp hresults
  have howner : ∀ i, tallyOwner i ∈ (Instance.createAll [tallying, tallying] .empty).1 := by
    decide +kernel
  have hopened : ∀ i, (tallyOwner i).Opens (tallyStage.continuations i) :=
    fun _ => ⟨.empty, .inl ⟨0, rfl⟩⟩
  have hverbs : ∀ c ∈ tallyCalls, c.Confined := by
    intro c hc
    obtain ⟨i, -, rfl⟩ := List.mem_map.mp hc
    exact confined_systemVerbs
  obtain ⟨⟨t, hfiltered, -⟩, -⟩ := instances_isolated howner hopened hverbs hplay (howner 0)
  refine ⟨?_, ?_⟩
  · have hboth := congrArg (List.map Prod.snd) hreports
    rw [List.map_map] at hboth
    rw [hplay]
    exact congrArg some hboth
  · have hleft := congrArg (List.filter fun q => tallyOwner q.1 = tallyOwner 0) hreports
    rw [List.filter_map] at hleft
    rw [hfiltered]
    refine (congrArg some hleft).trans ?_
    decide +kernel

end Resumable
end CogMachine
