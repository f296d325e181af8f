import CogMachine.Proofs.Decoding
import CogMachine.Proofs.Isolation
import CogMachine.Proofs.Upholding

/-!
# Memory accesses

Which cell a memory instruction reads or writes, and that it touches no other.

- `MemoryOp.Takes`: the operands that an instruction takes, and in which order. The address is the sum of its
  base and its index as integers (`effectiveAddress_eq`).
- `Space` tells the cells of an engine by their places, whatever memories they are in, and where a frame finds
  its own. `Space.Serves` is what both engines have to show of their loads and stores.
- `Accessed` is what an access inside the memory comes to. `Exact` collects what one instruction does to the
  cells, for every opcode but the calls of verbs, and `exact_of_serves` derives it for any engine.
- `accesses_exact`: it holds of both engines.
-/

namespace CogMachine

/-! ## Operands and addresses -/

namespace MemoryOp

/-- **What is taken** off the operand stack: an index, which is 0 for an instruction without one, and below it
the value to store, if one is stored. -/
inductive Takes : MemoryOp → Stack Value → Int32 → Option Value → Stack Value → Prop where
  | load {below : Stack Value} : Takes .load below 0 none below
  | loadIndexed {below : Stack Value} {i : Value} : Takes .loadIndexed (below.push i) i.asInt none below
  | store {below : Stack Value} {v : Value} : Takes .store (below.push v) 0 (some v) below
  | storeIndexed {below : Stack Value} {v i : Value} :
      Takes .storeIndexed ((below.push v).push i) i.asInt (some v) below

/-- The instruction that takes no index and otherwise does the same. -/
def plain : MemoryOp → MemoryOp
  | load | loadIndexed => load
  | store | storeIndexed => store

/-- Whether an index is taken. -/
def isIndexed : MemoryOp → Bool
  | load | store => false
  | loadIndexed | storeIndexed => true

end MemoryOp

/-- **Addresses are exact.** A base that fits into a word and an index of 32 bits add up without a wrap. -/
theorem effectiveAddress_eq {base : Nat} (h : base < wordLimit) (index : Int32) :
    effectiveAddress base index = base + index.toInt := by
  have hbase : Int.bmod base 0x10000000000000000 = base := by
    have hword : base < 0x100000000 := h
    rw [Int.bmod_def]
    omega
  exact congrArg (· + index.toInt) hbase

/-- The base of an instruction that was decoded fits into a word. -/
theorem base_lt_of_decode {p : Program} {offset : Nat} {ins : Instruction} {op : MemoryOp} {base : Nat}
    (h : p.decode offset = .ok ins) (ho : ins.opcode = .memory op base) : base < wordLimit := by
  obtain ⟨text, hdenotes, -⟩ := Instruction.decode_eq_ok_iff.mp h
  rw [ho] at hdenotes
  cases hdenotes with
  | written hfits => exact hfits.address base rfl

/-! ## Cells -/

/-- **The cells of an engine,** and where the instructions of a frame find theirs, by the memory that the frame
names. -/
structure Space (S : Type) where
  /-- What tells a cell from all others. -/
  Place : Type
  /-- What is in a cell, if it is there. -/
  content? : S → Place → Option Value
  place : Option MemoryId → Nat → Place
  /-- The number of cells, if a memory is bound to the name. -/
  size? : S → Option MemoryId → Option Nat

namespace Space

variable {S : Type} {e : Engine S}

/-- **Another value** in one cell, and in the others what there was. -/
structure Replaces (space : Space S) (p : space.Place) (v : Value) (s s' : S) : Prop where
  cell : space.content? s' p = some v
  others : ∀ q, q ≠ p → space.content? s' q = space.content? s q
  size : ∀ id?, space.size? s' id? = space.size? s id?

/-- **What an engine has to show:** it loads and stores cells of the memory that a frame is bound to, and
refuses every address outside of it. -/
structure Serves (space : Space S) (e : Engine S) : Prop where
  load : ∀ {s f n a}, space.size? s f.memory = some n → a < n →
    ∃ v, space.content? s (space.place f.memory a) = some v ∧ e.load s f a = .ok v
  store : ∀ {s f n a}, space.size? s f.memory = some n → a < n → ∀ v, ∃ s',
    e.store f a v s = (.ok (), s') ∧ space.Replaces (space.place f.memory a) v s s'
  loadOutside : ∀ {s f n} {a : Int}, space.size? s f.memory = some n → ¬(0 ≤ a ∧ a < n) →
    e.load s f a = .error (.memoryOutOfRange a n)
  storeOutside : ∀ {s f n} {a : Int}, space.size? s f.memory = some n → ¬(0 ≤ a ∧ a < n) → ∀ v,
    e.store f a v s = (.error (.ofCause (.memoryOutOfRange a n)), s)

end Space

namespace Memory

variable {m : Memory} {a : Nat}

theorem index_of_lt (h : a < m.size) : m.index a = .ok a := index_eq_ok.mpr ⟨rfl, h⟩

theorem index_of_outside {address : Int} (h : ¬(0 ≤ address ∧ address < m.size)) :
    m.index address = .error (.memoryOutOfRange address m.size) := by
  unfold index
  rw [if_neg]
  simpa using h

theorem load_of_lt (h : a < m.size) : ∃ v, m.cells[a]? = some v ∧ m.load a = .ok v := by
  obtain ⟨v, hcell⟩ : ∃ v, m.cells[a]? = some v := ⟨_, Array.getElem?_eq_getElem h⟩
  refine ⟨v, hcell, ?_⟩
  rw [load, index_of_lt h]
  exact congrArg (fun c : Option Value => Except.ok (c.getD .void)) hcell

theorem load_of_outside {address : Int} (h : ¬(0 ≤ address ∧ address < m.size)) :
    m.load address = .error (.memoryOutOfRange address m.size) := by
  rw [load, index_of_outside h]
  rfl

theorem getElem?_set_self (h : a < m.size) (v : Value) : (m.set a v).cells[a]? = some v := by
  rw [set, Array.getElem?_setIfInBounds, if_pos rfl]
  exact if_pos h

theorem getElem?_set_of_ne {b : Nat} (h : a ≠ b) (v : Value) : (m.set a v).cells[b]? = m.cells[b]? := by
  rw [set, Array.getElem?_setIfInBounds, if_neg h]

end Memory

namespace Transient

variable {ω : Type}

/-- All frames use the heap. -/
def space (ω : Type) : Space (State ω) where
  Place := Nat
  content? s a := s.heap.cells[a]?
  place _ a := a
  size? s _ := some s.heap.size

theorem serves (verbs : VerbTable (Handler ω)) : (space ω).Serves (engine verbs) where
  load := by
    intro s f n a hn ha
    cases hn
    exact Memory.load_of_lt ha
  store := by
    intro s f n a hn ha v
    cases hn
    refine ⟨{ s with heap := s.heap.set a v }, ?_, ?_, ?_, fun _ => ?_⟩
    · simp only [engine, Memory.index_of_lt ha]
    · exact Memory.getElem?_set_self ha v
    · intro q hq
      exact Memory.getElem?_set_of_ne (Ne.symm hq) v
    · exact congrArg some (Memory.size_set _ _ _)
  loadOutside := by
    intro s f n a hn ha
    cases hn
    exact Memory.load_of_outside ha
  storeOutside := by
    intro s f n a hn ha v
    cases hn
    simp only [engine, Memory.index_of_outside ha]

end Transient

namespace Resumable

variable {σ : Type}

/-- A frame uses the memory that it names. Cells of different memories are different cells. -/
def space (σ : Type) : Space (World σ) where
  Place := Option MemoryId × Nat
  content? w p := (p.1.bind w.memories.get?).bind (·.cells[p.2]?)
  place id? a := (id?, a)
  size? w id? := (id?.bind w.memories.get?).map Memory.size

variable {w : World σ} {f : Frame} {n : Nat}

theorem exists_of_size? (h : (space σ).size? w f.memory = some n) :
    ∃ id m, f.memory = some id ∧ w.memories.get? id = some m ∧ m.size = n := by
  obtain ⟨m, hm, hsize⟩ := Option.map_eq_some_iff.mp h
  obtain ⟨id, hid, hm⟩ := Option.bind_eq_some_iff.mp hm
  exact ⟨id, m, hid, hm, hsize⟩

/-- A store in one memory replaces one of its cells, and leaves all other memories alone. -/
theorem replaces_set {id : MemoryId} {m : Memory} {a : Nat} (hm : w.memories.get? id = some m) (ha : a < m.size)
    (v : Value) : (space σ).Replaces (some id, a) v w { w with memories := w.memories.set id a v } := by
  refine ⟨?_, ?_, ?_⟩
  · simp only [space, Option.bind_some, Memories.get?_set_self, hm, Option.map_some]
    exact Memory.getElem?_set_self ha v
  · rintro ⟨_ | j, b⟩ hq
    · rfl
    · by_cases hj : j = id
      · subst hj
        have hb : a ≠ b := by
          rintro rfl
          exact hq rfl
        simp only [space, Option.bind_some, Memories.get?_set_self, hm, Option.map_some]
        exact Memory.getElem?_set_of_ne hb v
      · simp only [space, Option.bind_some, Memories.get?_set_of_ne hj]
  · rintro (_ | j)
    · rfl
    · by_cases hj : j = id
      · subst hj
        simp only [space, Option.bind_some, Memories.get?_set_self, hm, Option.map_some, Memory.size_set]
      · simp only [space, Option.bind_some, Memories.get?_set_of_ne hj]

theorem serves (verbs : VerbTable (Handler σ)) : (space σ).Serves (engine verbs) where
  load := by
    intro w f n a hn ha
    obtain ⟨id, m, hid, hm, rfl⟩ := exists_of_size? hn
    obtain ⟨v, hcell, hload⟩ := Memory.load_of_lt ha
    refine ⟨v, ?_, ?_⟩
    · simp only [space, hid, Option.bind_some, hm]
      exact hcell
    · simp only [engine, hid, Memories.load_of_get? hm]
      exact hload
  store := by
    intro w f n a hn ha v
    obtain ⟨id, m, hid, hm, rfl⟩ := exists_of_size? hn
    refine ⟨{ w with memories := w.memories.set id a v }, ?_, ?_⟩
    · simp only [engine, hid, Memories.locate_of_get? hm, Memory.index_of_lt ha]
      rfl
    · simp only [space, hid]
      exact replaces_set hm ha v
  loadOutside := by
    intro w f n a hn ha
    obtain ⟨id, m, hid, hm, rfl⟩ := exists_of_size? hn
    simp only [engine, hid, Memories.load_of_get? hm]
    exact Memory.load_of_outside ha
  storeOutside := by
    intro w f n a hn ha v
    obtain ⟨id, m, hid, hm, rfl⟩ := exists_of_size? hn
    simp only [engine, hid, Memories.locate_of_get? hm, Memory.index_of_outside ha]
    rfl

end Resumable

/-! ## Instructions -/

/-- The engine without its memory: every load and store is refused. -/
def Engine.unbound {S : Type} (e : Engine S) : Engine S where
  load _ _ _ := .error .noMemory
  store _ _ _ := Machine.fault .noMemory
  invoke := e.invoke

namespace Machine

variable {S : Type} {e : Engine S} {limits : Limits} {m : Machine S} {f : Frame} {n base : Nat} {op : MemoryOp}
variable {index : Int32} {stored : Option Value} {below : Stack Value}

/-- The machine with other operands. -/
def withOperands (m : Machine S) (operands : Stack Value) : Machine S :=
  { m with continuation := { m.continuation with operands } }

@[simp] theorem withOperands_rest (m : Machine S) (operands : Stack Value) :
    (m.withOperands operands).rest = m.rest := rfl

@[simp] theorem withOperands_top? (m : Machine S) (operands : Stack Value) :
    (m.withOperands operands).continuation.top? = m.continuation.top? := rfl

@[simp] theorem withOperands_operands (m : Machine S) (operands : Stack Value) :
    (m.withOperands operands).continuation.operands = operands := rfl

/-- **Attempting** an instruction: it is carried out with the counter moved past it. -/
def attempt (e : Engine S) (limits : Limits) (ins : Instruction) (m : Machine S) :
    Except Fault (Option Halt) × Machine S :=
  perform e limits ins.opcode (m.advance ins.next)

/-- **What an access inside the memory comes to,** by the value that it stores. A load pushes what is in the
cell and changes none. -/
inductive Accessed (space : Space S) (p : space.Place) (m : Machine S) (below : Stack Value) :
    Option Value → Machine S → Prop where
  | loaded {v : Value} (hcell : space.content? m.rest p = some v) :
      Accessed space p m below none (m.withOperands (below.push v))
  | stored {v : Value} {rest : S} (hcell : space.Replaces p v m.rest rest) :
      Accessed space p m below (some v) { m.withOperands below with rest }

/-- **Exact and contained accesses.** What an instruction of the frame `f`, which is bound to a memory of `n`
cells, does to the cells. -/
structure Exact (space : Space S) (e : Engine S) (limits : Limits) (m : Machine S) (f : Frame)
    (ins : Instruction) (n : Nat) : Prop where
  /-- The cycle is the attempt, settled: it ends in the same machine, and a fault of the one is the cause of the
  other's. -/
  cycle : ∃ slot position, Machine.cycle e limits m = settle limits slot position (attempt e limits ins m)
  state : (Machine.cycle e limits m).2 = (attempt e limits ins m).2
  fault : ∀ {attempted}, (attempt e limits ins m).1 = .error attempted →
    ∃ fault, (Machine.cycle e limits m).1 = .faulted fault ∧ fault.cause = attempted.cause
  inside : ∀ {op base index stored below}, ins.opcode = .memory op base →
    op.Takes m.continuation.operands index stored below → ∀ a : Nat, (base : Int) + index.toInt = a → a < n →
    ∃ m', attempt e limits ins m = (.ok none, m') ∧
      Accessed space (space.place f.memory a) (m.advance ins.next) below stored m'
  outside : ∀ {op base index stored below}, ins.opcode = .memory op base →
    op.Takes m.continuation.operands index stored below →
    ¬(0 ≤ (base : Int) + index.toInt ∧ (base : Int) + index.toInt < n) →
    attempt e limits ins m = (.error (.ofCause (.memoryOutOfRange (base + index.toInt) n)),
      (m.advance ins.next).withOperands below)
  underflow : ∀ {op base}, ins.opcode = .memory op base →
    (∀ index stored below, ¬op.Takes m.continuation.operands index stored below) →
    ∃ below, attempt e limits ins m =
      (.error (.ofCause .stackUnderflow), (m.advance ins.next).withOperands below)
  /-- Behind the index, an indexed instruction is the plain one at the address. -/
  plain : ∀ {op base below i}, ins.opcode = .memory op base → op.isIndexed = true →
    m.continuation.operands = below.push i → ∀ a : Nat, (base : Int) + i.asInt.toInt = a →
    attempt e limits ins m =
      attempt e limits { ins with opcode := .memory op.plain a } (m.withOperands below)
  others : (∀ op base, ins.opcode ≠ .memory op base) → (∀ keeps id, ins.opcode ≠ .call keeps id) →
    (attempt e limits ins m).2.rest = m.rest
  size : (∀ keeps id, ins.opcode ≠ .call keeps id) →
    ∀ id?, space.size? (attempt e limits ins m).2.rest id? = space.size? m.rest id?

/-! ### Memory instructions -/

theorem pop_of_push {v : Value} (h : m.continuation.operands = below.push v) :
    pop m = (.ok v, m.withOperands below) := by
  unfold pop
  rw [h]
  rfl

theorem pop_of_empty (h : m.continuation.operands = .empty) :
    pop m = (.error (.ofCause .stackUnderflow), m) := by
  unfold pop
  rw [h]
  rfl

/-- The access itself, once its operands are off the stack. -/
def reach (e : Engine S) (address : Int) : Option Value → Action (Machine S) Unit
  | none => Machine.load e address
  | some v => Machine.store e address v

theorem access_of_takes (hbase : base < wordLimit)
    (h : op.Takes m.continuation.operands index stored below) :
    access e base op m = reach e (base + index.toInt) stored (m.withOperands below) := by
  generalize ho : m.continuation.operands = operands at h
  cases h with
  | load =>
      have hm : m = m.withOperands m.continuation.operands := rfl
      rw [← ho, ← hm]
      show Machine.load e base m = Machine.load e (base + 0) m
      rw [Int.add_zero]
  | @loadIndexed _ i =>
      show (pop >>= fun i => Machine.load e (effectiveAddress base i.asInt)) m = _
      rw [Action.bind_ok _ (pop_of_push ho), effectiveAddress_eq hbase]
      rfl
  | @store _ v =>
      show (pop >>= fun v => Machine.store e base v) m = Machine.store e (base + 0) v _
      rw [Action.bind_ok _ (pop_of_push ho), Int.add_zero]
  | @storeIndexed _ v i =>
      show (pop >>= fun i => pop >>= fun v => Machine.store e (effectiveAddress base i.asInt) v) m = _
      rw [Action.bind_ok _ (pop_of_push ho), Action.bind_ok _ (pop_of_push rfl), effectiveAddress_eq hbase]
      rfl

/-- **Underflow.** If the operands are not all there, those that are there are taken, and that is all. -/
theorem access_of_not_takes (e : Engine S) (base : Nat)
    (h : ∀ index stored below, ¬op.Takes m.continuation.operands index stored below) :
    ∃ below, access e base op m = (.error (.ofCause .stackUnderflow), m.withOperands below) := by
  generalize ho : m.continuation.operands = operands at h
  cases op with
  | load => exact absurd .load (h _ _ _)
  | loadIndexed =>
      rcases operands.eq_empty_or_push with rfl | ⟨below, i, rfl⟩
      · exact ⟨_, Action.bind_error _ (pop_of_empty ho)⟩
      · exact absurd .loadIndexed (h _ _ _)
  | store =>
      rcases operands.eq_empty_or_push with rfl | ⟨below, v, rfl⟩
      · exact ⟨_, Action.bind_error _ (pop_of_empty ho)⟩
      · exact absurd .store (h _ _ _)
  | storeIndexed =>
      rcases operands.eq_empty_or_push with rfl | ⟨below, i, rfl⟩
      · exact ⟨_, Action.bind_error _ (pop_of_empty ho)⟩
      · rcases below.eq_empty_or_push with rfl | ⟨below, v, rfl⟩
        · refine ⟨.empty, ?_⟩
          show (pop >>= fun i => pop >>= fun v => Machine.store e (effectiveAddress base i.asInt) v) m = _
          rw [Action.bind_ok _ (pop_of_push ho)]
          exact Action.bind_error _ (pop_of_empty rfl)
        · exact absurd .storeIndexed (h _ _ _)

theorem access_plain (hbase : base < wordLimit) (hindexed : op.isIndexed = true) {i : Value}
    (h : m.continuation.operands = below.push i) {a : Nat} (ha : (base : Int) + i.asInt.toInt = a) :
    access e base op m = access e a op.plain (m.withOperands below) := by
  cases op with
  | load | store => cases hindexed
  | loadIndexed =>
      show (pop >>= fun i => Machine.load e (effectiveAddress base i.asInt)) m = _
      rw [Action.bind_ok _ (pop_of_push h), effectiveAddress_eq hbase, ha]
      rfl
  | storeIndexed =>
      show (pop >>= fun i => pop >>= fun v => Machine.store e (effectiveAddress base i.asInt) v) m = _
      rw [Action.bind_ok _ (pop_of_push h), effectiveAddress_eq hbase, ha]
      rfl

variable {space : Space S}

theorem reach_inside (hserves : space.Serves e) (htop : m.continuation.top? = some f)
    (hn : space.size? m.rest f.memory = some n) {a : Nat} (ha : a < n) (stored : Option Value)
    (below : Stack Value) :
    ∃ m', reach e a stored (m.withOperands below) = (.ok (), m') ∧
      Accessed space (space.place f.memory a) m below stored m' := by
  cases stored with
  | none =>
      obtain ⟨v, hcell, hload⟩ := hserves.load hn ha
      refine ⟨_, ?_, .loaded hcell⟩
      simp only [reach, load_eq, withOperands_top?, htop, withOperands_rest, hload]
      rfl
  | some v =>
      obtain ⟨rest, hstore, hreplaces⟩ := hserves.store hn ha v
      refine ⟨_, ?_, .stored hreplaces⟩
      simp only [reach, store_eq, withOperands_top?, htop]
      simp only [inRest, withOperands, hstore]

theorem reach_outside (hserves : space.Serves e) (htop : m.continuation.top? = some f)
    (hn : space.size? m.rest f.memory = some n) {address : Int} (ha : ¬(0 ≤ address ∧ address < n))
    (stored : Option Value) (below : Stack Value) :
    reach e address stored (m.withOperands below) =
      (.error (.ofCause (.memoryOutOfRange address n)), m.withOperands below) := by
  cases stored with
  | none =>
      simp only [reach, load_eq, withOperands_top?, htop, withOperands_rest, hserves.loadOutside hn ha]
  | some v =>
      simp only [reach, store_eq, withOperands_top?, htop]
      simp only [inRest, withOperands, hserves.storeOutside hn ha]

theorem Accessed.size {p : space.Place} {m' : Machine S} (h : Accessed space p m below stored m')
    (id? : Option MemoryId) : space.size? m'.rest id? = space.size? m.rest id? := by
  cases h with
  | loaded => rfl
  | stored hreplaces => exact hreplaces.size id?

/-! ### Other instructions -/

/-- An instruction that is no memory instruction does not need a memory. -/
theorem perform_unbound {o : Opcode} (ho : ∀ op base, o ≠ .memory op base) (m : Machine S) :
    perform e limits o m = perform e.unbound limits o m := by
  cases o with
  | push v | dup | branch op target | call keeps id | ret | unary op | binary op => rfl
  | memory op base => exact absurd rfl (ho op base)

/-- Without a memory nothing but a verb changes what the engine keeps. -/
theorem upheld_unbound (e : Engine S) (limits : Limits) (s : S) :
    Upheld e.unbound limits (fun m => m.rest = s) (fun _ => True) (fun _ => True) where
  toUpheldInFrame := upheldInFrame_of_operands trivial trivial (fun _ hm _ => hm)
    (fun _ _ _ _ _ _ _ => trivial) (fun _ _ _ _ hm _ => ⟨hm, trivial⟩) fun _ _ _ hm => hm
  link _ _ := upholds_link_of trivial trivial fun _ _ hm _ _ => hm
  retire _ hm := hm

/-- **Everything else** leaves all cells as they are, whether it succeeds or not. -/
theorem rest_of_perform {o : Opcode} (hmemory : ∀ op base, o ≠ .memory op base)
    (hcall : ∀ keeps id, o ≠ .call keeps id) (m : Machine S) : (perform e limits o m).2.rest = m.rest := by
  rw [perform_unbound hmemory]
  exact ((upheld_unbound e limits m.rest).perform hcall (fun _ _ => trivial) m rfl).state

/-! ### All instructions -/

theorem perform_memory {r : Except Fault Unit} {m' : Machine S} (h : access e base op m = (r, m')) :
    perform e limits (.memory op base) m = (r.map fun _ => none, m') := by
  show (access e base op >>= fun _ => pure none) m = _
  rw [Action.bind_eq, h]
  cases r <;> rfl

theorem perform_inside (hserves : space.Serves e) (limits : Limits) (htop : m.continuation.top? = some f)
    (hn : space.size? m.rest f.memory = some n) (hbase : base < wordLimit)
    (htakes : op.Takes m.continuation.operands index stored below) {a : Nat}
    (ha : (base : Int) + index.toInt = a) (hlt : a < n) :
    ∃ m', perform e limits (.memory op base) m = (.ok none, m') ∧
      Accessed space (space.place f.memory a) m below stored m' := by
  obtain ⟨m', hreach, haccessed⟩ := reach_inside hserves htop hn hlt stored below
  rw [← ha, ← access_of_takes hbase htakes] at hreach
  exact ⟨m', perform_memory hreach, haccessed⟩

theorem perform_outside (hserves : space.Serves e) (htop : m.continuation.top? = some f)
    (hn : space.size? m.rest f.memory = some n) (hbase : base < wordLimit)
    (htakes : op.Takes m.continuation.operands index stored below)
    (hout : ¬(0 ≤ (base : Int) + index.toInt ∧ (base : Int) + index.toInt < n)) :
    perform e limits (.memory op base) m =
      (.error (.ofCause (.memoryOutOfRange (base + index.toInt) n)), m.withOperands below) := by
  have hreach := reach_outside hserves htop hn hout stored below
  rw [← access_of_takes hbase htakes] at hreach
  exact perform_memory hreach

theorem perform_underflow (e : Engine S) (limits : Limits) (base : Nat)
    (h : ∀ index stored below, ¬op.Takes m.continuation.operands index stored below) :
    ∃ below, perform e limits (.memory op base) m =
      (.error (.ofCause .stackUnderflow), m.withOperands below) := by
  obtain ⟨below, haccess⟩ := access_of_not_takes e base h
  exact ⟨below, perform_memory haccess⟩

theorem perform_plain (hbase : base < wordLimit) (hindexed : op.isIndexed = true) {i : Value}
    (h : m.continuation.operands = below.push i) {a : Nat} (ha : (base : Int) + i.asInt.toInt = a) :
    perform e limits (.memory op base) m = perform e limits (.memory op.plain a) (m.withOperands below) :=
  (perform_memory (access_plain hbase hindexed h ha)).trans (perform_memory rfl).symm

/-- **Memories keep their sizes,** whatever comes of the instruction. -/
theorem size_of_perform (hserves : space.Serves e) (htop : m.continuation.top? = some f)
    (hn : space.size? m.rest f.memory = some n) {o : Opcode}
    (hbase : ∀ op base, o = .memory op base → base < wordLimit) (hcall : ∀ keeps id, o ≠ .call keeps id)
    (id? : Option MemoryId) : space.size? (perform e limits o m).2.rest id? = space.size? m.rest id? := by
  by_cases hmemory : ∃ op base, o = .memory op base
  · obtain ⟨op, base, rfl⟩ := hmemory
    by_cases htakes : ∃ index stored below, op.Takes m.continuation.operands index stored below
    · obtain ⟨index, stored, below, htakes⟩ := htakes
      by_cases hin : 0 ≤ (base : Int) + index.toInt ∧ (base : Int) + index.toInt < n
      · obtain ⟨a, ha⟩ := Int.eq_ofNat_of_zero_le hin.1
        obtain ⟨m', hperform, haccessed⟩ :=
          perform_inside hserves limits htop hn (hbase op base rfl) htakes ha (by omega)
        rw [hperform]
        exact haccessed.size id?
      · rw [perform_outside hserves htop hn (hbase op base rfl) htakes hin]
        rfl
    · obtain ⟨below, hperform⟩ := perform_underflow e limits base
        fun index stored below h => htakes ⟨index, stored, below, h⟩
      rw [hperform]
      rfl
  · rw [rest_of_perform (fun op base h => hmemory ⟨op, base, h⟩) hcall]

/-- **An engine that serves its cells** has exact and contained accesses. -/
theorem exact_of_serves (hserves : space.Serves e) (limits : Limits) {ins : Instruction}
    (htop : m.continuation.top? = some f) (hins : m.instruction? = some ins)
    (hn : space.size? m.rest f.memory = some n) : Exact space e limits m f ins n := by
  obtain ⟨callers, g, hframes, hdecode⟩ := decoded_of_instruction? hins
  obtain rfl : g = f := by
    rw [top?_push hframes] at htop
    exact Option.some.inj htop
  have hbase : ∀ op base, ins.opcode = .memory op base → base < wordLimit :=
    fun _ _ => base_lt_of_decode hdecode
  -- Moving the counter leaves the frame bound to its memory, and the operands and cells as they are.
  have htop' : (m.advance ins.next).continuation.top? = some { g with counter := ins.next } :=
    top?_push (advance_frames ins.next hframes)
  have hcycle : Machine.cycle e limits m = settle limits _ _ (attempt e limits ins m) :=
    cycle_of_decoded hframes hdecode
  constructor
  case cycle => exact ⟨_, _, hcycle⟩
  case state => rw [hcycle, settle_snd]
  case fault =>
    intro attempted hattempt
    have hresult : attempt e limits ins m = (.error attempted, (attempt e limits ins m).2) :=
      Prod.ext hattempt rfl
    rw [hcycle, hresult]
    exact ⟨_, rfl, traced_cause _ _ _ _⟩
  case inside =>
    intro op base index stored below ho htakes a ha hlt
    rw [attempt, ho]
    exact perform_inside hserves limits htop' hn (hbase op base ho) htakes ha hlt
  case outside =>
    intro op base index stored below ho htakes hout
    rw [attempt, ho]
    exact perform_outside hserves htop' hn (hbase op base ho) htakes hout
  case underflow =>
    intro op base ho hnone
    rw [attempt, ho]
    exact perform_underflow e limits base hnone
  case plain =>
    intro op base below i ho hindexed hoperands a ha
    rw [attempt, ho]
    exact perform_plain (m := m.advance ins.next) (hbase op base ho) hindexed hoperands ha
  case others =>
    intro hmemory hcall
    exact rest_of_perform hmemory hcall _
  case size =>
    intro hcall id?
    exact size_of_perform hserves htop' hn hbase hcall id?

end Machine

/-- **Memory accesses are exact and contained,** on both engines, in every state in which a frame that is bound
to a memory decodes an instruction: see the fields of `Machine.Exact`. -/
theorem accesses_exact :
    (∀ {ω : Type} (verbs : VerbTable (Transient.Handler ω)) (limits : Limits)
      (m : Machine (Transient.State ω)) (f : Frame) (ins : Instruction),
      m.continuation.top? = some f → m.instruction? = some ins →
      Machine.Exact (Transient.space ω) (Transient.engine verbs) limits m f ins m.rest.heap.size) ∧
    ∀ {σ : Type} (verbs : VerbTable (Resumable.Handler σ)) (limits : Limits)
      (m : Machine (Resumable.World σ)) (f : Frame) (ins : Instruction) (id : MemoryId) (memory : Memory),
      m.continuation.top? = some f → m.instruction? = some ins → f.memory = some id →
      m.rest.memories.get? id = some memory →
      Machine.Exact (Resumable.space σ) (Resumable.engine verbs) limits m f ins memory.size := by
  constructor
  · intro ω verbs limits m f ins htop hins
    exact Machine.exact_of_serves (Transient.serves verbs) limits htop hins rfl
  · intro σ verbs limits m f ins id memory htop hins hid hmemory
    have hn : (Resumable.space σ).size? m.rest f.memory = some memory.size := by
      simp only [Resumable.space, hid, Option.bind_some, hmemory, Option.map_some]
    exact Machine.exact_of_serves (Resumable.serves verbs) limits htop hins hn

/-- A script of one instruction, which takes its index and its value from the operands. -/
def indexing (op : MemoryOp) (base : Nat) : Script where
  name := "indexing"
  program := .ofBytes (Opcode.encode (.memory op base))
  symbols := .empty
  exports := .empty

/-- A load with the index `-2` behind the base 1, on a heap of one cell. -/
def loadingBelow : Machine (Transient.State Unit) :=
  ⟨⟨Stack.empty.push (.enter (indexing .loadIndexed 1) 0), Stack.empty.push (.int (-2))⟩, ⟨.ofSize 1, ()⟩⟩

/-- A store of 7 with the index `-2` behind the base 4, in a memory of three cells. -/
def storingInside : Machine (Resumable.World Unit) :=
  ⟨⟨Stack.empty.push { Frame.enter (indexing .storeIndexed 4) 0 with memory := some ⟨0⟩ },
    (Stack.empty.push (.int 7)).push (.int (-2))⟩, ⟨⟨#[.ofSize 3]⟩, ()⟩⟩

/-- A negative index leads below the base: on the heap to the address `-1`, which is refused, and in the memory to
its last cell, where the value that lay below the index is stored. -/
theorem accesses_exact_negativeIndex :
    (∃ m', Machine.attempt (Transient.engine .empty) .standard ⟨.memory .loadIndexed 1, 0, 5⟩ loadingBelow =
      (.error (.ofCause (.memoryOutOfRange (-1) 1)), m') ∧ m'.rest = loadingBelow.rest) ∧
    ∃ m', Machine.attempt (Resumable.engine .empty) .standard ⟨.memory .storeIndexed 4, 0, 5⟩ storingInside =
      (.ok none, m') ∧ m'.continuation.operands = .empty ∧
      (Resumable.space Unit).Replaces ((Resumable.space Unit).place (some ⟨0⟩) 2) (.int 7)
        storingInside.rest m'.rest := by
  constructor
  · have hexact := accesses_exact.1 (.empty : VerbTable (Transient.Handler Unit)) .standard loadingBelow
      (.enter (indexing .loadIndexed 1) 0) ⟨.memory .loadIndexed 1, 0, 5⟩ rfl (by cbv)
    exact ⟨_, hexact.outside rfl .loadIndexed (by decide), rfl⟩
  · have hexact := accesses_exact.2 (.empty : VerbTable (Resumable.Handler Unit)) .standard storingInside
      { Frame.enter (indexing .storeIndexed 4) 0 with memory := some ⟨0⟩ } ⟨.memory .storeIndexed 4, 0, 5⟩ ⟨0⟩
      (.ofSize 3) rfl (by cbv) rfl rfl
    obtain ⟨m', hattempt, haccessed⟩ := hexact.inside rfl .storeIndexed 2 (by decide) (by decide)
    cases haccessed with
    | stored hreplaces => exact ⟨_, hattempt, rfl, hreplaces⟩

end CogMachine
