import CogMachine.Host.Entry
import CogMachine.Machine.Instance
import CogMachine.Machine.SystemVerbs
import CogMachine.Proofs.Engines
import CogMachine.Proofs.Execution
import Mathlib

/-!
# Turns on the two engines

A host lets a script take turns: each starts at an entry and runs to its end. The transient engine
keeps its heap from turn to turn, and the resumable engine the memory of an instance.

- `Transient.turns` and `Resumable.turns` are the two sequences, with what each turn came to.
- The heap is empty until the first turn that passes its entry check; then it is reserved, and holds
  what an instance starts with (`reserve_empty`). From then on reserving does nothing
  (`reserve_of_size`).
- `engines_agree`: turn by turn the two engines come to the same, and keep the same cells.
-/

namespace CogMachine

/-! ## Memory for the symbols -/

namespace SymbolTable

variable {t : SymbolTable}

/-- A running maximum is at least what it started with, and more than every address it passed. -/
theorem le_foldl_max (symbols : List Symbol) (n : Nat) :
    n ≤ symbols.foldl (fun n s => max n (s.address + 1)) n ∧
      ∀ s ∈ symbols, s.address < symbols.foldl (fun n s => max n (s.address + 1)) n := by
  induction symbols generalizing n with
  | nil => simp
  | cons a rest ih =>
      obtain ⟨hle, hlt⟩ := ih (max n (a.address + 1))
      simp only [List.foldl_cons, List.mem_cons, forall_eq_or_imp]
      refine ⟨?_, ?_, hlt⟩
      · omega
      · omega

/-- **Every symbol has its cell.** -/
theorem address_lt_memorySize {s : Symbol} (h : s ∈ t.symbols) : s.address < t.memorySize :=
  (le_foldl_max t.symbols 0).2 s h

theorem size_foldl_set (symbols : List Symbol) (cells : Array Value) :
    (symbols.foldl (fun cells s => cells.setIfInBounds s.address s.default) cells).size =
      cells.size := by
  induction symbols generalizing cells with
  | nil => rfl
  | cons s rest ih =>
      rw [List.foldl_cons, ih, Array.size_setIfInBounds]

/-- The default memory has a cell for every symbol and no more. -/
theorem size_defaultCells (t : SymbolTable) : t.defaultCells.size = t.memorySize := by
  unfold defaultCells
  rw [size_foldl_set, Array.size_replicate]

end SymbolTable

namespace Transient

theorem reserve_empty (t : SymbolTable) : reserve t .empty = ⟨t.defaultCells⟩ := by
  have hall : (t.symbols.filter fun s => Memory.empty.size ≤ s.address) = t.symbols := by
    rw [List.filter_eq_self]
    intro s _
    exact decide_eq_true (Nat.zero_le _)
  simp only [reserve]
  rw [hall]
  simp only [Memory.ensureSize, Memory.empty, Memory.size, SymbolTable.defaultCells]
  congr
  simp

theorem reserve_of_size {t : SymbolTable} {heap : Memory} (h : t.memorySize ≤ heap.size) :
    reserve t heap = heap := by
  have hnone : (t.symbols.filter fun s => heap.size ≤ s.address) = [] := by
    rw [List.filter_eq_nil_iff]
    intro s hs
    have hlt := SymbolTable.address_lt_memorySize hs
    simp only [decide_eq_true_eq]
    omega
  simp only [reserve]
  rw [hnone]
  simp only [Memory.ensureSize, List.foldl_nil]
  rw [Nat.sub_eq_zero_of_le h]
  simp

end Transient

/-! ## Turns -/

/-- **The entry check:** the offset at which a run starts. -/
def Script.enter (script : Script) : Host.Entry → Except Fault.Cause Nat
  | .message name => do
    let offset ← script.entryPoint name
    script.program.checkAddress offset
    return offset
  | .offset n => do
    script.program.checkAddress n
    return n

namespace Instance

variable (i : Instance) (context : Context)

/-- **Frames are opened** where the entry check says. -/
theorem continuationAt_eq (n : Nat) : i.continuationAt n context =
    (i.script.enter (.offset n)).map fun offset =>
      .ofFrame { Frame.enter i.script offset with memory := some i.memory, context := context } := by
  simp only [continuationAt, frameAt, Script.enter]
  cases i.script.program.checkAddress n <;> rfl

theorem continuationFor_eq (message : String) : i.continuationFor message context =
    (i.script.enter (.message message)).map fun offset =>
      .ofFrame { Frame.enter i.script offset with memory := some i.memory, context := context } := by
  simp only [continuationFor, frameFor, Script.enter]
  cases i.script.entryPoint message with
  | error cause => rfl
  | ok n =>
      simp only [frameAt, bind, Except.bind]
      cases i.script.program.checkAddress n <;> rfl

end Instance

/-- One turn of a script, and the fuel it may use. -/
structure Turn where
  entry : Host.Entry
  context : Context
  fuel : Nat

namespace Transient

variable {ω : Type}

def turn (verbs : VerbTable (Handler ω)) (limits : Limits) (script : Script) (turn : Turn)
    (s : State ω) : Option (Except Fault Value × State ω) :=
  match turn.entry with
  | .message name => runMessage verbs limits turn.fuel script name s
  | .offset n => run verbs limits turn.fuel script n s

/-- **Turns of the transient engine,** with what each came to. -/
def turns (verbs : VerbTable (Handler ω)) (limits : Limits) (script : Script) :
    List Turn → State ω → Option (List (Except Fault Value) × State ω)
  | [], s => some ([], s)
  | first :: rest, s =>
    match turn verbs limits script first s with
    | none => none
    | some (r, s) => (turns verbs limits script rest s).map fun (rs, s) => (r :: rs, s)

/-- A turn checks its entry, reserves memory and runs. -/
theorem turn_eq (verbs : VerbTable (Handler ω)) (limits : Limits) (script : Script) (turn : Turn)
    (s : State ω) : Transient.turn verbs limits script turn s =
      match script.enter turn.entry with
      | .error cause => some (.error (.ofCause cause), s)
      | .ok offset =>
        (Machine.run (engine verbs) limits turn.fuel ⟨.ofFrame (.enter script offset),
          { s with heap := reserve script.symbols s.heap }⟩).map fun (r, m) =>
            (r.map (valueOf m), m.rest) := by
  obtain ⟨entry, context, fuel⟩ := turn
  cases entry with
  | message name =>
      simp only [Transient.turn, Script.enter, runMessage]
      cases script.entryPoint name with
      | error cause => rfl
      | ok offset =>
          simp only [run, bind, Except.bind]
          cases script.program.checkAddress offset <;> rfl
  | offset n =>
      simp only [Transient.turn, Script.enter, run, bind, Except.bind]
      cases script.program.checkAddress n <;> rfl

end Transient

namespace Resumable

variable {σ ω : Type}

def turn (verbs : VerbTable (Handler σ)) (limits : Limits) (i : Instance) (turn : Turn)
    (w : World σ) : Option (Except Fault Answer × World σ) :=
  let opened := match turn.entry with
    | .message name => i.continuationFor name turn.context
    | .offset n => i.continuationAt n turn.context
  match opened with
  | .error cause => some (.error (.ofCause cause), w)
  | .ok c => (execute verbs limits turn.fuel ⟨c, w⟩).map fun (r, m) => (r, m.rest)

/-- **Turns of the resumable engine,** with what each came to. -/
def turns (verbs : VerbTable (Handler σ)) (limits : Limits) (i : Instance) :
    List Turn → World σ → Option (List (Except Fault Answer) × World σ)
  | [], w => some ([], w)
  | first :: rest, w =>
    match turn verbs limits i first w with
    | none => none
    | some (r, w) => (turns verbs limits i rest w).map fun (rs, w) => (r :: rs, w)

/-- A turn checks its entry and executes a frame of the instance. -/
theorem turn_eq (verbs : VerbTable (Handler σ)) (limits : Limits) (i : Instance) (turn : Turn)
    (w : World σ) : Resumable.turn verbs limits i turn w =
      match i.script.enter turn.entry with
      | .error cause => some (.error (.ofCause cause), w)
      | .ok offset =>
        (execute verbs limits turn.fuel ⟨.ofFrame { Frame.enter i.script offset with
          memory := some i.memory, context := turn.context }, w⟩).map fun (r, m) => (r, m.rest) := by
  obtain ⟨entry, context, fuel⟩ := turn
  cases entry with
  | message name =>
      simp only [Resumable.turn, Instance.continuationFor_eq]
      cases i.script.enter (.message name) <;> rfl
  | offset n =>
      simp only [Resumable.turn, Instance.continuationAt_eq]
      cases i.script.enter (.offset n) <;> rfl

/-! ## Agreement -/

/-- **Agreement** of the two engines between turns. The instance has what the heap holds once memory
is reserved for the script; the heap is empty as long as no turn has passed its entry check. -/
structure Agree (view : σ → ω) (i : Instance) (entered : Bool) (s : Transient.State ω)
    (w : World σ) : Prop where
  host : s.host = view w.services
  cells : w.memories.get? i.memory = some (Transient.reserve i.script.symbols s.heap)
  size : entered = true → s.heap.size = i.script.symbols.memorySize
  empty : entered = false → s.heap = .empty

section Agreement

variable {view : σ → ω} {t : VerbTable (Transient.Handler ω)} {t' : VerbTable (Handler σ)}
  {limits : Limits} {i : Instance} {entered : Bool} {s : Transient.State ω} {w : World σ}

theorem Agree.size_reserve (h : Agree view i entered s w) :
    (Transient.reserve i.script.symbols s.heap).size = i.script.symbols.memorySize := by
  cases entered with
  | true =>
      have hsize := h.size rfl
      rw [Transient.reserve_of_size (Nat.le_of_eq hsize.symm), hsize]
  | false =>
      rw [h.empty rfl, Transient.reserve_empty]
      exact SymbolTable.size_defaultCells _

/-- **A fresh instance agrees** with an empty heap. -/
theorem agree_create (view : σ → ω) (script : Script) (ms : Memories) (services : σ) :
    Agree view (Instance.create script ms).1 false ⟨.empty, view services⟩
      ⟨(Instance.create script ms).2, services⟩ := by
  refine ⟨rfl, ?_, by simp, fun _ => rfl⟩
  rw [Transient.reserve_empty]
  exact ms.get?_allocate _

/-- A machine that owns the instance's memory agrees with its projection. -/
theorem Owned.agree {m : Machine (World σ)}
    (h : Owned i.memory i.script.symbols.memorySize m) :
    Agree view i true (project view i.memory m).rest m.rest := by
  obtain ⟨heap, hheap, hsize⟩ := h.cells
  have hproject : (project view i.memory m).rest.heap = heap := by
    show (m.rest.memories.get? i.memory).getD .empty = heap
    rw [hheap]
    rfl
  refine ⟨rfl, ?_, ?_, by simp⟩
  · rw [hproject, Transient.reserve_of_size (Nat.le_of_eq hsize.symm), hheap]
  · intro _
    rw [hproject, hsize]

/-- The frame of a turn owns the instance's memory, and its projection is the transient run. -/
theorem Agree.start (h : Agree view i entered s w) (offset : Nat) (context : Context) :
    Owned i.memory i.script.symbols.memorySize ⟨.ofFrame { Frame.enter i.script offset with
        memory := some i.memory, context := context }, w⟩ ∧
      project view i.memory ⟨.ofFrame { Frame.enter i.script offset with
        memory := some i.memory, context := context }, w⟩ =
      ⟨.ofFrame (.enter i.script offset),
        { s with heap := Transient.reserve i.script.symbols s.heap }⟩ := by
  refine ⟨⟨?_, _, h.cells, h.size_reserve⟩, ?_⟩
  · intro f hf
    rw [List.mem_singleton.mp hf]
  · rw [project, h.cells, ← h.host]
    rfl

/-- **One turn after its entry check.** The execution of the instance's frame ends as the run of the
script on the reserved heap, for every fuel. -/
theorem Agree.execute (hagree : Agree view i entered s w) (h : SameVerbs view t t')
    (limits : Limits) (fuel offset : Nat) (context : Context) :
    Option.Rel (fun a b => b.1 = a.1.map .completed ∧ Agree view i true a.2 b.2)
      ((Machine.run (Transient.engine t) limits fuel ⟨.ofFrame (.enter i.script offset),
          { s with heap := Transient.reserve i.script.symbols s.heap }⟩).map fun (r, m) =>
            (r.map (Transient.valueOf m), m.rest))
      ((execute t' limits fuel ⟨.ofFrame { Frame.enter i.script offset with
          memory := some i.memory, context := context }, w⟩).map fun (r, m) => (r, m.rest)) := by
  obtain ⟨howned, hproject⟩ := hagree.start offset context
  obtain ⟨hrunOwned, hrun⟩ := run_project h limits fuel howned
  rw [← hproject, hrun, Resumable.execute, if_neg (by simp [Continuation.isFinished,
    Continuation.ofFrame, Continuation.pushFrame]), passes]
  rcases hr : Machine.run (engine t') limits fuel _ with _ | ⟨fault | halt, m⟩
  · exact .none
  · exact .some ⟨rfl, (hrunOwned _ _ hr).agree⟩
  · obtain ⟨v, rfl⟩ := completed_of_run h hr
    exact .some ⟨rfl, (hrunOwned _ _ hr).agree⟩

/-- **One turn.** Both engines refuse the entry with the same fault, or come to the same. -/
theorem Agree.turn (hagree : Agree view i entered s w) (h : SameVerbs view t t') (limits : Limits)
    (turn : Turn) :
    Option.Rel (fun a b => b.1 = a.1.map .completed ∧
        Agree view i (entered || (i.script.enter turn.entry).isOk) a.2 b.2)
      (Transient.turn t limits i.script turn s) (Resumable.turn t' limits i turn w) := by
  rw [Transient.turn_eq, Resumable.turn_eq]
  cases i.script.enter turn.entry with
  | error cause =>
      refine .some ⟨rfl, ?_⟩
      rw [show (entered || (Except.error cause : Except Fault.Cause Nat).isOk) = entered from
        Bool.or_false entered]
      exact hagree
  | ok offset =>
      rw [show (entered || (Except.ok offset : Except Fault.Cause Nat).isOk) = true from
        Bool.or_true entered]
      exact hagree.execute h limits turn.fuel offset turn.context

/-- **Turn by turn.** -/
theorem Agree.turns (hagree : Agree view i entered s w) (h : SameVerbs view t t') (limits : Limits)
    (list : List Turn) :
    Option.Rel (fun a b => b.1 = a.1.map (Except.map .completed) ∧
        Agree view i (entered || list.any fun turn => (i.script.enter turn.entry).isOk) a.2 b.2)
      (Transient.turns t limits i.script list s) (Resumable.turns t' limits i list w) := by
  -- Whether an entry was accepted so far is part of the relation, so it is generalized as well.
  induction list generalizing entered s w with
  | nil =>
      refine .some ⟨rfl, ?_⟩
      rw [List.any_nil, Bool.or_false]
      exact hagree
  | cons first rest ih =>
      have hfirst := hagree.turn h limits first
      rw [Transient.turns, Resumable.turns]
      generalize Transient.turn t limits i.script first s = a at hfirst
      generalize Resumable.turn t' limits i first w = b at hfirst
      cases hfirst with
      | none => exact .none
      | @some x y hxy =>
          obtain ⟨r, s₁⟩ := x
          obtain ⟨r', w₁⟩ := y
          obtain ⟨rfl, hnext⟩ := hxy
          have hrest := ih hnext
          rw [Bool.or_assoc] at hrest
          show Option.Rel _ (Option.map _ (Transient.turns t limits i.script rest s₁))
            (Option.map _ (Resumable.turns t' limits i rest w₁))
          generalize Transient.turns t limits i.script rest s₁ = a at hrest
          generalize Resumable.turns t' limits i rest w₁ = b at hrest
          cases hrest with
          | none => exact .none
          | some hab =>
              refine .some ⟨?_, hab.2⟩
              simp only [List.map_cons, hab.1]

/-- **The two engines agree.** A script takes turns with the transient engine, whose heap is empty at
first, and with the resumable engine on a fresh instance. Either both have no result, or what each
turn comes to is the same, and so is what the host keeps. Once a turn has passed its entry check, the
heap and the memory of the instance hold the same cells; before, the heap is empty. -/
theorem engines_agree (h : SameVerbs view t t') (limits : Limits) (script : Script) (ms : Memories)
    (services : σ) (list : List Turn) :
    Option.Rel (fun a b => b.1 = a.1.map (Except.map .completed) ∧ a.2.host = view b.2.services ∧
        if list.any fun turn => (script.enter turn.entry).isOk then
          b.2.memories.get? (Instance.create script ms).1.memory = some a.2.heap
        else a.2.heap = .empty)
      (Transient.turns t limits script list ⟨.empty, view services⟩)
      (Resumable.turns t' limits (Instance.create script ms).1 list
        ⟨(Instance.create script ms).2, services⟩) := by
  have hturns := (agree_create view script ms services).turns h limits list
  rw [Bool.false_or] at hturns
  change Option.Rel _ (Transient.turns t limits script list _) _ at hturns
  generalize Transient.turns t limits script list _ = a at hturns ⊢
  generalize Resumable.turns t' limits _ list _ = b at hturns ⊢
  cases hturns with
  | none => exact .none
  | some hab =>
      obtain ⟨hresults, hagree⟩ := hab
      refine .some ⟨hresults, hagree.host, ?_⟩
      have hcells := hagree.cells
      change Agree view _ (list.any fun turn => (script.enter turn.entry).isOk) _ _ at hagree
      cases hany : list.any fun turn => (script.enter turn.entry).isOk with
      | true =>
          rw [hany] at hagree
          rw [Transient.reserve_of_size (Nat.le_of_eq (hagree.size rfl).symm)] at hcells
          exact hcells
      | false =>
          rw [hany] at hagree
          exact hagree.empty rfl

end Agreement

/-- A transient verb that gives back the operand it pops. -/
def echoes : VerbTable (Transient.Handler Unit) := VerbTable.empty.add "echo" Transient.Lent.pop

def echoesResumable : VerbTable (Handler Unit) :=
  VerbTable.empty.add "echo" fun _ => do
    let v ← popOperand
    return .value v

theorem echoes_same : SameVerbs id echoes echoesResumable := by
  intro i
  cases i with
  | zero =>
      refine .some ?_
      rintro keeps ⟨⟨frames, operands⟩, rest⟩
      rcases operands.eq_empty_or_push with rfl | ⟨below, v, rfl⟩
      · exact ⟨rfl, rfl, rfl, rfl⟩
      · exact ⟨rfl, rfl, rfl, rfl⟩
  | succ i => exact .none

/-- A script that adds one to its only symbol, and returns it through the verb. -/
def counting : Script where
  name := "counting"
  program := .ofBytes ([.memory .load 0, .push (.int 1), .binary .add, .memory .store 0,
    .memory .load 0, .call true ⟨0⟩, .ret].flatMap Opcode.encode)
  symbols := ⟨[{ Symbol.ofType "n" .int 0 with default := .int 5 }]⟩
  exports := ⟨[("go", 0)]⟩

/-- Three turns, of which one has no handler. -/
def countingTurns : List Turn :=
  [⟨.message "stop", .empty, 9⟩, ⟨.message "go", .empty, 9⟩, ⟨.offset 0, .empty, 9⟩]

/-- The symbol is counted up in the memory of the instance, too. -/
theorem engines_agree_counting :
    ∃ w, Resumable.turns echoesResumable .standard (Instance.create counting .empty).1 countingTurns
        ⟨(Instance.create counting .empty).2, ()⟩ =
      some ([.error (.ofCause (.unknownMessage "stop")), .ok (.completed (.int 6)),
        .ok (.completed (.int 7))], w) ∧
      w.memories.get? (Instance.create counting .empty).1.memory = some ⟨#[.int 7]⟩ := by
  have hagree := engines_agree echoes_same .standard counting .empty () countingTurns
  have hturns : Transient.turns echoes .standard counting countingTurns ⟨.empty, ()⟩ =
      some ([.error (.ofCause (.unknownMessage "stop")), .ok (.int 6), .ok (.int 7)],
        ⟨⟨#[.int 7]⟩, ()⟩) := by cbv
  have hentered : countingTurns.any (fun turn => (counting.enter turn.entry).isOk) = true := by cbv
  rw [show (⟨.empty, id ()⟩ : Transient.State Unit) = ⟨.empty, ()⟩ from rfl, hturns] at hagree
  generalize Resumable.turns echoesResumable .standard _ countingTurns _ = b at hagree ⊢
  cases hagree with
  | @some x y hab =>
      obtain ⟨results, w⟩ := y
      obtain ⟨hresults, -, hcells⟩ := hab
      rw [if_pos hentered] at hcells
      refine ⟨w, ?_, hcells⟩
      rw [show results = _ from hresults]
      rfl

end Resumable
end CogMachine
