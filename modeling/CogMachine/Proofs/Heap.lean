import CogMachine.Proofs.Reachable
import CogMachine.Proofs.Symbols

/-!
# The heap of the transient engine

All scripts share one heap. A run that passes its entry check reserves what its script needs before the first
cycle, and from then on the heap has the same length.

- `reserve?` stores the defaults with checked stores. `reserves` says what it comes to, and that it does come to
  something: no check ever fails, as the addresses of every table that calls can make are signed numbers too.
- `size_cycle` is the step, that no cycle changes the length, and `size_continues` and `size_run` the runs.
- `serve` lets any scripts run one after the other; `heap_grows_soundly` is about all that they do to the heap.
-/

namespace CogMachine

namespace Transient

variable {ω : Type} {verbs : VerbTable (Handler ω)} {limits : Limits} {t : SymbolTable}

/-! ## Reserving -/

/-- **Reserving with checks.** The default of each symbol above the old length is stored at its address,
read as a signed number, and that faults where there is no cell. -/
def reserve? (t : SymbolTable) (heap : Memory) : Except Fault.Cause Memory :=
  (t.symbols.filter fun s => heap.size ≤ s.address).foldlM
    (fun memory s => memory.store (Int.bmod s.address 0x10000000000000000) s.default)
    (heap.ensureSize t.memorySize)

/-- What reserving does for a table: the heap after it, by the heap before. -/
structure Reserves (t : SymbolTable) (heap heap' : Memory) : Prop where
  checked : t.Addressable → reserve? t heap = .ok heap'
  made : t.Made → reserve? t heap = .ok heap'
  size : heap'.size = max heap.size t.memorySize
  kept : ∀ a, a < heap.size → heap'.cells[a]? = heap.cells[a]?
  added : ∀ a, heap.size ≤ a → a < heap'.size → heap'.cells[a]? = some (t.initial a)

theorem size_ensureSize (heap : Memory) (n : Nat) : (heap.ensureSize n).size = max heap.size n := by
  simp only [Memory.ensureSize, Memory.size, Array.size_append, Array.size_replicate]
  omega

/-- Stores into cells that there are do not fail. -/
theorem foldlM_store {symbols : List Symbol} {heap : Memory}
    (hcells : ∀ s ∈ symbols, s.address < heap.size) (hsigned : ∀ s ∈ symbols, s.address < 2 ^ 63) :
    symbols.foldlM (m := Except Fault.Cause)
        (fun memory s => memory.store (Int.bmod s.address 0x10000000000000000) s.default) heap =
      .ok ⟨symbols.foldl (fun cells s => cells.setIfInBounds s.address s.default) heap.cells⟩ := by
  induction symbols generalizing heap with
  | nil => rfl
  | cons s rest ih =>
      rw [List.forall_mem_cons] at hcells hsigned
      have haddress : Int.bmod s.address 0x10000000000000000 = s.address := by
        have := hsigned.1
        rw [Int.bmod_def]
        omega
      have hindex : heap.index (Int.bmod s.address 0x10000000000000000) = .ok s.address :=
        Memory.index_eq_ok.mpr ⟨haddress, hcells.1⟩
      rw [List.foldlM_cons, Memory.store, hindex, List.foldl_cons]
      refine ih ?_ hsigned.2
      intro s' hs'
      rw [Memory.size_set]
      exact hcells.2 s' hs'

/-- **Reserving** grows the heap to what the script needs, gives the new cells their defaults, and leaves
the others alone. With checks it comes to the same. -/
theorem reserves (t : SymbolTable) (heap : Memory) : Reserves t heap (reserve t heap) := by
  have hsize : (reserve t heap).size = max heap.size t.memorySize := by
    rw [← size_ensureSize]
    exact SymbolTable.size_foldl_set _ _
  have hcell : ∀ a, (reserve t heap).cells[a]? = (heap.ensureSize t.memorySize).cells[a]?.map fun v =>
      (SymbolTable.lastDefault? (t.symbols.filter fun s => heap.size ≤ s.address) a).getD v :=
    fun a => SymbolTable.getElem?_foldl_set _ _ a
  have hchecked : t.Addressable → reserve? t heap = .ok (reserve t heap) := by
    intro hsigned
    refine foldlM_store ?_ fun s hs => hsigned s (List.mem_of_mem_filter hs)
    intro s hs
    rw [size_ensureSize]
    exact lt_max_of_lt_right (SymbolTable.address_lt_memorySize (List.mem_of_mem_filter hs))
  refine ⟨hchecked, fun hmade => hchecked hmade.addressable, hsize, ?_, ?_⟩
  · intro a ha
    -- No symbol above the old length is at an address below it.
    have hnone : SymbolTable.lastDefault? (t.symbols.filter fun s => heap.size ≤ s.address) a = none := by
      unfold SymbolTable.lastDefault?
      rw [List.filter_eq_nil_iff.mpr]
      · rfl
      · intro s hs
        have habove := List.of_mem_filter hs
        simp only [decide_eq_true_eq] at habove ⊢
        omega
    rw [hcell a, hnone, Memory.ensureSize, Array.getElem?_append_left ha]
    simp
  · intro a ha ha'
    have hall : SymbolTable.lastDefault? (t.symbols.filter fun s => heap.size ≤ s.address) a =
        SymbolTable.lastDefault? t.symbols a := by
      unfold SymbolTable.lastDefault?
      rw [List.filter_filter]
      congr 2
      apply List.filter_congr
      intro s _
      simp only [Bool.and_eq_left_iff_imp, decide_eq_true_eq]
      omega
    have hnew : (heap.ensureSize t.memorySize).cells[a]? = some .void := by
      rw [Memory.ensureSize, Array.getElem?_append_right ha, Array.getElem?_replicate, if_pos]
      have : heap.cells.size = heap.size := rfl
      omega
    rw [hcell a, hall, hnew]
    rfl

/-! ## Running -/

open CogMachine.Action (Meets Upholds)

/-- A heap of that length. -/
def Sized (n : Nat) (m : Machine (State ω)) : Prop := m.rest.heap.size = n

/-- **Primitive actions** leave the heap its length; only a store changes it at all. -/
theorem upheld_sized (n : Nat) :
    Machine.Upheld (engine verbs) limits (Sized n) (fun _ => True) (fun _ => True) where
  toUpheldInFrame := by
    refine Machine.upheldInFrame_of_operands trivial trivial (fun m hm _ => hm) (fun _ _ _ _ _ _ _ => trivial)
      ?_ fun _ _ m hm => hm
    intro m f address v hm _
    show Meets _ _ (Machine.inRest ((engine verbs).store f address v) m)
    simp only [Machine.inRest, engine]
    cases m.rest.heap.index address with
    | error cause => exact ⟨hm, trivial⟩
    | ok i => exact (Memory.size_set _ _ _).trans hm
  link _ _ := Machine.upholds_link_of trivial trivial fun m f hm _ _ => hm
  retire m hm := hm

/-- Verbs are not lent the heap. -/
theorem upholds_invoke (n : Nat) (keeps : Bool) (id : VerbId) :
    Upholds (Sized n) (fun _ => True) ((engine verbs).invoke id keeps) := by
  intro m hm
  simp only [engine, invoke]
  cases verbs.get id with
  | error cause => exact ⟨hm, trivial⟩
  | ok verb =>
      rcases hverb : verb.handler ⟨m.continuation.operands, m.rest.host⟩ with ⟨fault | v, lent⟩
      · simp only [hverb]
        exact ⟨hm, trivial⟩
      · simp only [hverb]
        exact hm

/-- **The step.** No cycle changes the length of the heap, not even one that faults. -/
theorem size_cycle (verbs : VerbTable (Handler ω)) (limits : Limits) (m : Machine (State ω)) :
    (Machine.cycle (engine verbs) limits m).2.rest.heap.size = m.rest.heap.size := by
  rcases Machine.cycle_cases (engine verbs) limits m with
    ⟨-, hc⟩ | ⟨_, _, _, -, -, hc⟩ | ⟨callers, f, i, -, -, hc⟩
  · rw [hc]
  · rw [hc]
  · rw [hc, Machine.settle_snd]
    have hupheld : Machine.Upheld (engine verbs) limits (Sized m.rest.heap.size) _ _ := upheld_sized _
    by_cases hcall : ∃ keeps id, i.opcode = .call keeps id
    · obtain ⟨keeps, id, ho⟩ := hcall
      rw [ho]
      exact (hupheld.toUpheldInFrame.call (upholds_invoke _ keeps id) (m.advance i.next) rfl).state
    · exact (hupheld.perform (by simpa using hcall) (fun _ _ => trivial) (m.advance i.next) rfl).state

/-- **The run,** while it is under way, -/
theorem size_continues {m m' : Machine (State ω)} (h : Machine.Continues (engine verbs) limits m m') :
    m'.rest.heap.size = m.rest.heap.size := by
  induction h with
  | start => rfl
  | @cycle m₁ m₂ o _ hc _ ih =>
      have hcycle := size_cycle verbs limits m₁
      rw [hc] at hcycle
      exact hcycle.trans ih

/-- and when it has ended. -/
theorem size_run {fuel : Nat} {m m' : Machine (State ω)} {r : Except Fault Halt}
    (h : Machine.run (engine verbs) limits fuel m = some (r, m')) :
    m'.rest.heap.size = m.rest.heap.size := by
  induction fuel generalizing m with
  | zero => cases h
  | succ fuel ih =>
      have hfirst := size_cycle verbs limits m
      rw [Machine.run] at h
      rcases hc : Machine.cycle (engine verbs) limits m with ⟨_ | halt | fault, m₁⟩
      · rw [hc] at h hfirst
        exact (ih h).trans hfirst
      · rw [hc] at h hfirst
        cases h
        exact hfirst
      · rw [hc] at h hfirst
        cases h
        exact hfirst

/-! ## One script after the other -/

/-- What the host asks the engine for: a turn of a script, with the verbs that it may call. -/
structure Request (ω : Type) where
  verbs : VerbTable (Handler ω)
  script : Script
  turn : Turn

namespace Request

/-- Serving a request, by an offset or by a message. -/
def serve (limits : Limits) (request : Request ω) (s : State ω) : Option (Except Fault Value × State ω) :=
  Transient.turn request.verbs limits request.script request.turn s

/-- The offset at which it starts, if it passes the entry check. -/
def entry (request : Request ω) : Except Fault.Cause Nat := request.script.enter request.turn.entry

variable {request : Request ω} {s s₁ : State ω} {offset : Nat}

theorem serve_of_refused {cause : Fault.Cause} (h : request.entry = .error cause) :
    request.serve limits s = some (.error (.ofCause cause), s) := by
  rw [serve, turn_eq, show request.script.enter request.turn.entry = _ from h]

theorem serve_of_entered (h : request.entry = .ok offset) :
    request.serve limits s =
      (Machine.run (engine request.verbs) limits request.turn.fuel
        (started request.script offset s)).map fun (r, m) => (r.map (valueOf m), m.rest) := by
  rw [serve, turn_eq, show request.script.enter request.turn.entry = _ from h]
  rfl

theorem size_serve_of_entered {r : Except Fault Value} (hentry : request.entry = .ok offset)
    (h : request.serve limits s = some (r, s₁)) :
    s₁.heap.size = (reserve request.script.symbols s.heap).size := by
  rw [serve_of_entered hentry] at h
  obtain ⟨⟨r', m⟩, hrun, heq⟩ := Option.map_eq_some_iff.mp h
  cases heq
  exact size_run hrun

/-- **A request** does not make the heap shorter. -/
theorem size_le_of_serve {r : Except Fault Value} (h : request.serve limits s = some (r, s₁)) :
    s.heap.size ≤ s₁.heap.size := by
  cases hentry : request.entry with
  | error cause =>
      rw [serve_of_refused hentry] at h
      cases h
      exact Nat.le_refl _
  | ok offset =>
      rw [size_serve_of_entered hentry h, (reserves ..).size]
      exact Nat.le_max_left ..

end Request

/-- **Serving requests** one after the other, with what each came to. -/
def serve (limits : Limits) : List (Request ω) → State ω → Option (List (Except Fault Value) × State ω)
  | [], s => some ([], s)
  | first :: rest, s =>
    match first.serve limits s with
    | none => none
    | some (r, s) => (serve limits rest s).map fun (rs, s) => (r :: rs, s)

theorem size_le_of_serve {requests : List (Request ω)} {s s₁ : State ω} {rs : List (Except Fault Value)}
    (h : serve limits requests s = some (rs, s₁)) : s.heap.size ≤ s₁.heap.size := by
  induction requests generalizing s rs with
  | nil =>
      cases h
      exact Nat.le_refl _
  | cons first rest ih =>
      rw [serve] at h
      rcases hfirst : first.serve limits s with _ | ⟨r, s'⟩
      · rw [hfirst] at h
        cases h
      · rw [hfirst] at h
        obtain ⟨⟨rs', s₁'⟩, hrest, heq⟩ := Option.map_eq_some_iff.mp h
        cases heq
        exact Nat.le_trans (Request.size_le_of_serve hfirst) (ih hrest)

/-- **The heap grows soundly.** However many requests were served before, the heap has not become shorter.
The next one either fails its entry check, and then nothing at all changes, or it runs on a heap that was
reserved for its script. From there the heap has that length in every state that the run comes to,
whether it ends or not, and at its end. -/
theorem heap_grows_soundly {requests : List (Request ω)} {s s₁ : State ω} {rs : List (Except Fault Value)}
    (hserved : serve limits requests s = some (rs, s₁)) :
    s.heap.size ≤ s₁.heap.size ∧ ∀ request : Request ω,
      (∀ cause, request.entry = .error cause →
        request.serve limits s₁ = some (.error (.ofCause cause), s₁)) ∧
      ∀ offset, request.entry = .ok offset → ∃ heap,
        Reserves request.script.symbols s₁.heap heap ∧
        (∀ m, Machine.Continues (engine request.verbs) limits
            ⟨.ofFrame (.enter request.script offset), { s₁ with heap }⟩ m →
          m.rest.heap.size = heap.size ∧
            (Machine.cycle (engine request.verbs) limits m).2.rest.heap.size = heap.size) ∧
        request.serve limits s₁ =
          (Machine.run (engine request.verbs) limits request.turn.fuel
            ⟨.ofFrame (.enter request.script offset), { s₁ with heap }⟩).map
              (fun (r, m) => (r.map (valueOf m), m.rest)) ∧
        ∀ r s₂, request.serve limits s₁ = some (r, s₂) → s₂.heap.size = heap.size := by
  refine ⟨size_le_of_serve hserved, fun request => ⟨fun cause => Request.serve_of_refused, ?_⟩⟩
  intro offset hentry
  refine ⟨_, reserves _ _, ?_, Request.serve_of_entered hentry, fun r s₂ =>
    Request.size_serve_of_entered hentry⟩
  intro m hcontinues
  have hsize := size_continues hcontinues
  exact ⟨hsize, (size_cycle request.verbs limits m).trans hsize⟩

/-- A script that adds one to its first symbol. Its third one is where its second is, and nothing is
declared in between. -/
def sparse : Script where
  name := "sparse"
  program := .ofBytes ([.memory .load 0, .push (.int 1), .binary .add, .memory .store 0,
    .memory .load 0, .ret].flatMap Opcode.encode)
  symbols := ⟨[{ Symbol.ofType "n" .int 0 with default := .int 5 }, Symbol.ofType "low" .float 2,
    { Symbol.ofType "high" .int 2 with default := .int 7 }]⟩
  exports := .empty

/-- A script with a single cell, which takes what the other one left there. -/
def single : Script where
  name := "single"
  program := .ofBytes ([.memory .load 0, .ret].flatMap Opcode.encode)
  symbols := ⟨[{ Symbol.ofType "m" .int 0 with default := .int 1 }]⟩
  exports := .empty

def atStart (script : Script) : Request Unit := ⟨.empty, script, ⟨.offset 0, .empty, 9⟩⟩

/-- The first script has one cell, and the second one brings two more; `n` is already 1 by then. -/
theorem heap_grows_soundly_sparse :
    serve .standard [atStart single] (⟨.empty, ()⟩ : State Unit) =
      some ([.ok (.int 1)], ⟨⟨#[.int 1]⟩, ()⟩) ∧
    ∃ heap, reserve? sparse.symbols ⟨#[.int 1]⟩ = .ok heap ∧ heap.size = 3 ∧
      heap.cells[0]? = some (.int 1) ∧ heap.cells[1]? = some .void ∧ heap.cells[2]? = some (.int 7) := by
  have hserved : serve .standard [atStart single] (⟨.empty, ()⟩ : State Unit) =
      some ([.ok (.int 1)], ⟨⟨#[.int 1]⟩, ()⟩) := by cbv
  refine ⟨hserved, ?_⟩
  obtain ⟨-, hnext⟩ := heap_grows_soundly hserved
  obtain ⟨heap, hreserves, -⟩ := (hnext (atStart sparse)).2 0 (by cbv)
  have hsize : heap.size = 3 := hreserves.size
  have hmade : sparse.symbols.Made := ⟨sparse.symbols.symbols.map .insert, by decide⟩
  exact ⟨heap, hreserves.made hmade, hsize, hreserves.kept 0 (by decide),
    hreserves.added 1 (by decide) (by omega), hreserves.added 2 (by decide) (by omega)⟩

end Transient
end CogMachine
