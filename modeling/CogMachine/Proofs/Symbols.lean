import CogMachine.Proofs.Attempt
import CogMachine.Proofs.Turns

/-!
# Symbol tables

What a table comes to after any insertions and declarations, of which some may have been refused.

- `SymbolTable.Valid`: a name is taken once, and an address fits a word. A call keeps that (`Valid.call`), and so
  do any calls one after the other (`Valid.all`), so that every table which calls can make is addressed by signed
  numbers (`Made.addressable`). `symbols_all`: the table has the symbols that were accepted, in their order.
- `SymbolTable.initial`: what a table says of a cell. `getElem?_foldl_set`: storing defaults in the order of
  declaration leaves the last one.
- `IndexedTable` is a table that is changed in place and has an index from names to places. A call changes the two
  one after the other, and the lookup and the default memory trust them. `InStep` is why they can: it holds at first
  and after every call (`InStep.call`), and under it an indexed table answers as the plain one does.
- `symbols_sound` is about all sequences of calls.
-/

namespace CogMachine

namespace SymbolTable

variable {t t' : SymbolTable} {s : Symbol} {name : String} {type : ValueType}

/-! ## What a table says of a cell -/

/-- The default of the last of some symbols at an address. -/
def lastDefault? (symbols : List Symbol) (address : Nat) : Option Value :=
  (symbols.filter fun s => s.address = address).getLast?.map Symbol.default

/-- **What a new cell starts with:** the default of the symbol that was last declared there, or void. -/
def initial (t : SymbolTable) (address : Nat) : Value := (lastDefault? t.symbols address).getD .void

theorem lastDefault?_concat (symbols : List Symbol) (s : Symbol) (a : Nat) :
    lastDefault? (symbols ++ [s]) a = if s.address = a then some s.default else lastDefault? symbols a := by
  unfold lastDefault?
  rw [List.filter_append]
  split
  · rename_i h
    rw [List.filter_singleton, decide_eq_true h]
    simp
  · rename_i h
    rw [List.filter_singleton, decide_eq_false h]
    simp

/-- **Storing defaults** one after the other leaves in each cell the last one for it. -/
theorem getElem?_foldl_set (symbols : List Symbol) (cells : Array Value) (a : Nat) :
    (symbols.foldl (fun cells s => cells.setIfInBounds s.address s.default) cells)[a]? =
      cells[a]?.map fun v => (lastDefault? symbols a).getD v := by
  -- The last symbol is the one that counts, so the induction takes symbols from the end.
  induction symbols using List.reverseRecOn with
  | nil => simp [lastDefault?]
  | append_singleton symbols s ih =>
      rw [List.foldl_append, List.foldl_cons, List.foldl_nil, lastDefault?_concat,
        Array.getElem?_setIfInBounds, size_foldl_set]
      split
      · rename_i h
        subst h
        split
        · rename_i hin
          rw [Array.getElem?_eq_getElem hin]
          rfl
        · rename_i hout
          rw [Array.getElem?_eq_none (Nat.le_of_not_lt hout)]
          rfl
      · exact ih

/-! ## Single calls -/

/-- **Refusals** are because of the address or, if that fits, because of the name. -/
theorem insert_eq_error_iff {e : AssemblyError} : t.insert s = .error e ↔
    wordLimit ≤ s.address ∧ e = .addressOverflow s.address ∨
      s.address < wordLimit ∧ (∃ s' ∈ t.symbols, s'.name = s.name) ∧ e = .duplicateSymbol s.name := by
  rcases insert_outcome t s with ⟨hlarge, h⟩ | ⟨hfits, htaken, h⟩ | ⟨hfits, hfree, h⟩
  · rw [h]
    have hnot := Nat.not_lt.mpr hlarge
    simp only [Except.error.injEq, hlarge, hnot, true_and, false_and, or_false, eq_comm (b := e)]
  · rw [h]
    have hnot := Nat.not_le.mpr hfits
    simp only [Except.error.injEq, hfits, hnot, htaken, true_and, false_and, false_or, eq_comm (b := e)]
  · rw [h]
    have hnot := Nat.not_le.mpr hfits
    have hfree : ¬∃ s' ∈ t.symbols, s'.name = s.name := fun ⟨s', hs', heq⟩ => hfree s' hs' heq
    simp only [reduceCtorEq, hnot, hfree, false_and, and_false, or_false]

/-- **A declaration** is an insertion above all other addresses. -/
theorem declare_eq (t : SymbolTable) (name : String) (type : ValueType) : t.declare name type =
    (t.insert (.ofType name type t.memorySize)).map fun t' => (t.memorySize, t') := by
  change (t.insert (.ofType name type t.memorySize)).bind (fun t' => .ok (t.memorySize, t')) = _
  cases t.insert (.ofType name type t.memorySize) with
  | error e => rfl
  | ok t' => rfl

/-- The largest address is taken, unless there is none. -/
theorem memorySize_cases (t : SymbolTable) :
    t.memorySize = 0 ∨ ∃ s ∈ t.symbols, s.address + 1 = t.memorySize := by
  unfold memorySize
  induction t.symbols using List.reverseRecOn with
  | nil => exact .inl rfl
  | append_singleton symbols s ih =>
      rw [List.foldl_append, List.foldl_cons, List.foldl_nil]
      rcases Nat.le_total (s.address + 1) (symbols.foldl (fun n s => max n (s.address + 1)) 0) with hle | hle
      · rw [Nat.max_eq_left hle]
        exact ih.imp_right fun ⟨s', hs', h⟩ => ⟨s', List.mem_append_left _ hs', h⟩
      · rw [Nat.max_eq_right hle]
        exact .inr ⟨s, List.mem_append_right _ (List.mem_singleton_self s), rfl⟩

/-! ## Valid tables -/

/-- **Valid tables.** No name is taken twice, and every address fits a word. -/
structure Valid (t : SymbolTable) : Prop where
  names : (t.symbols.map Symbol.name).Nodup
  addresses : ∀ s ∈ t.symbols, s.address < wordLimit

theorem valid_empty : Valid .empty := ⟨List.nodup_nil, fun _ hs => nomatch hs⟩

/-- What is found under a name is what has that name. -/
theorem Valid.get?_eq_some_iff (h : t.Valid) : t.get? name = some s ↔ s ∈ t.symbols ∧ s.name = name := by
  constructor
  · intro hget
    exact ⟨List.mem_of_find?_eq_some hget, by simpa using List.find?_some hget⟩
  · rintro ⟨hs, rfl⟩
    obtain ⟨s', hs'⟩ := Option.isSome_iff_exists.mp (isSome_get?.mpr ⟨s, hs, rfl⟩)
    have hname : s'.name = s.name := by simpa using List.find?_some hs'
    rw [hs', List.inj_on_of_nodup_map h.names (List.mem_of_find?_eq_some hs') hs hname]

theorem Valid.memorySize_le (h : t.Valid) : t.memorySize ≤ wordLimit := by
  rcases memorySize_cases t with hzero | ⟨s, hs, hsize⟩
  · omega
  · have := h.addresses s hs
    omega

/-- **No address is left** above the others exactly if the last one is taken. -/
theorem Valid.memorySize_eq_iff (h : t.Valid) :
    wordLimit ≤ t.memorySize ↔ ∃ s ∈ t.symbols, s.address = wordLimit - 1 := by
  have hlimit : 0 < wordLimit := by decide
  constructor
  · intro hfull
    rcases memorySize_cases t with hzero | ⟨s, hs, hsize⟩
    · omega
    · have := h.addresses s hs
      exact ⟨s, hs, by omega⟩
  · rintro ⟨s, hs, haddress⟩
    have := address_lt_memorySize hs
    omega

theorem Valid.snoc (h : t.Valid) (hfits : s.address < wordLimit) (hfree : ∀ s' ∈ t.symbols, s'.name ≠ s.name) :
    Valid ⟨t.symbols ++ [s]⟩ where
  names := by
    rw [List.map_append, List.nodup_append]
    refine ⟨h.names, List.nodup_singleton _, ?_⟩
    intro x hx y hy
    obtain ⟨s', hs', rfl⟩ := List.mem_map.mp hx
    rw [List.mem_singleton.mp hy]
    exact hfree s' hs'
  addresses s' hs' := by
    rcases List.mem_append.mp hs' with hold | hnew
    · exact h.addresses s' hold
    · rwa [List.mem_singleton.mp hnew]

/-! ## Calls -/

/-- A call that may change a table. -/
inductive Call where
  | insert (s : Symbol)
  | declare (name : String) (type : ValueType)

/-- What a call answers: the address, if it was to choose one, or why it is refused. -/
abbrev Answer := Except AssemblyError (Option Nat)

/-- The symbol that a call is to add. -/
def Call.symbol (t : SymbolTable) : Call → Symbol
  | .insert s => s
  | .declare name type => .ofType name type t.memorySize

/-- The answer to a call, and the table after it. -/
def call (t : SymbolTable) : Call → Answer × SymbolTable
  | .insert s =>
    match t.insert s with
    | .ok t' => (.ok none, t')
    | .error e => (.error e, t)
  | .declare name type =>
    match t.declare name type with
    | .ok (address, t') => (.ok (some address), t')
    | .error e => (.error e, t)

/-- **Calls one after the other,** refused or not: their answers, and what is there at the end. -/
def Call.all {σ : Type} (step : σ → Call → Answer × σ) (x : σ) : List Call → List Answer × σ
  | [] => ([], x)
  | c :: rest => ((step x c).1 :: (all step (step x c).2 rest).1, (all step (step x c).2 rest).2)

/-- The symbols of the calls that are not refused, in their order. -/
def accepted (t : SymbolTable) : List Call → List Symbol
  | [] => []
  | c :: rest =>
    match (t.call c).1 with
    | .ok _ => c.symbol t :: accepted (t.call c).2 rest
    | .error _ => accepted (t.call c).2 rest

/-- **What a call can come to:** it adds its symbol, if this fits in, or else it changes nothing. -/
theorem call_cases (t : SymbolTable) (c : Call) :
    (∃ address, (t.call c).1 = .ok address) ∧ t.insert (c.symbol t) = .ok (t.call c).2 ∨
      ∃ e, (t.call c).1 = .error e ∧ t.insert (c.symbol t) = .error e ∧ (t.call c).2 = t := by
  cases c with
  | insert s =>
      simp only [call, Call.symbol]
      cases t.insert s with
      | ok t' => exact .inl ⟨⟨none, rfl⟩, rfl⟩
      | error e => exact .inr ⟨e, rfl, rfl, rfl⟩
  | declare name type =>
      simp only [call, Call.symbol, declare_eq]
      cases t.insert (.ofType name type t.memorySize) with
      | ok t' => exact .inl ⟨⟨some t.memorySize, rfl⟩, rfl⟩
      | error e => exact .inr ⟨e, rfl, rfl, rfl⟩

/-- **A call keeps a table valid.** -/
theorem Valid.call (h : t.Valid) (c : Call) : (t.call c).2.Valid := by
  rcases call_cases t c with ⟨-, hinsert⟩ | ⟨e, -, -, hsame⟩
  · obtain ⟨hfits, hfree, hnext⟩ := insert_eq_ok hinsert
    rw [hnext]
    exact h.snoc hfits hfree
  · rwa [hsame]

theorem Valid.all (h : t.Valid) (calls : List Call) : (Call.all SymbolTable.call t calls).2.Valid := by
  induction calls generalizing t with
  | nil => exact h
  | cons c rest ih => exact ih (h.call c)

/-- **Made tables:** those that calls make of an empty one, refused or not. -/
def Made (t : SymbolTable) : Prop := ∃ calls, (Call.all SymbolTable.call .empty calls).2 = t

/-- Addresses that are signed numbers of 64 bits as well. -/
def Addressable (t : SymbolTable) : Prop := ∀ s ∈ t.symbols, s.address < 2 ^ 63

theorem Valid.addressable (h : t.Valid) : t.Addressable := by
  intro s hs
  have hlimit : wordLimit < 2 ^ 63 := by decide
  exact Nat.lt_trans (h.addresses s hs) hlimit

/-- **No call can make a table** with an address that is no signed number. -/
theorem Made.addressable (h : t.Made) : t.Addressable := by
  obtain ⟨calls, rfl⟩ := h
  exact (valid_empty.all calls).addressable

/-- **The symbols are those accepted,** after those that were there. -/
theorem symbols_all (t : SymbolTable) (calls : List Call) :
    (Call.all SymbolTable.call t calls).2.symbols = t.symbols ++ t.accepted calls := by
  induction calls generalizing t with
  | nil => exact (List.append_nil _).symm
  | cons c rest ih =>
      rw [Call.all, ih, accepted]
      rcases call_cases t c with ⟨⟨address, hanswer⟩, hinsert⟩ | ⟨e, hanswer, -, hsame⟩
      · obtain ⟨-, -, hnext⟩ := insert_eq_ok hinsert
        rw [hanswer, hnext, List.append_assoc]
        rfl
      · rw [hanswer, hsame]

/-- **What a sound table is,** that holds the symbols inserted. -/
structure Sound (t : SymbolTable) (inserted : List Symbol) : Prop where
  order : t.symbols = inserted
  names : (inserted.map Symbol.name).Nodup
  addresses : ∀ s ∈ inserted, s.address < 2 ^ 32
  lookup : ∀ name s, t.get? name = some s ↔ s ∈ inserted ∧ s.name = name
  insert_refused : ∀ s e, t.insert s = .error e ↔
    2 ^ 32 ≤ s.address ∧ e = .addressOverflow s.address ∨
      s.address < 2 ^ 32 ∧ (∃ s' ∈ inserted, s'.name = s.name) ∧ e = .duplicateSymbol s.name
  declare_refused : ∀ name type e, t.declare name type = .error e ↔
    (∃ s ∈ inserted, s.address = 2 ^ 32 - 1) ∧ e = .addressOverflow (2 ^ 32) ∨
      (¬∃ s ∈ inserted, s.address = 2 ^ 32 - 1) ∧ (∃ s ∈ inserted, s.name = name) ∧ e = .duplicateSymbol name
  declared : ∀ name type address t', t.declare name type = .ok (address, t') →
    (∀ s ∈ inserted, s.address < address) ∧ t'.symbols = inserted ++ [.ofType name type address]
  unchanged : ∀ c e, (t.call c).1 = .error e → (t.call c).2 = t
  size : t.defaultCells.size = t.memorySize
  cells : ∀ a, a < t.memorySize → t.defaultCells[a]? = some (t.initial a)

theorem Valid.declare_eq_error_iff (h : t.Valid) {e : AssemblyError} : t.declare name type = .error e ↔
    (∃ s ∈ t.symbols, s.address = wordLimit - 1) ∧ e = .addressOverflow wordLimit ∨
      (¬∃ s ∈ t.symbols, s.address = wordLimit - 1) ∧ (∃ s ∈ t.symbols, s.name = name) ∧
        e = .duplicateSymbol name := by
  have hmap : t.declare name type = .error e ↔ t.insert (.ofType name type t.memorySize) = .error e := by
    rw [declare_eq]
    cases t.insert (.ofType name type t.memorySize) with
    | error e' => simp [Except.map]
    | ok t' => simp [Except.map]
  rw [hmap, insert_eq_error_iff, ← h.memorySize_eq_iff, ← Nat.not_le]
  have hsize : wordLimit ≤ t.memorySize → t.memorySize = wordLimit := fun hfull =>
    Nat.le_antisymm h.memorySize_le hfull
  refine or_congr (and_congr_right fun hfull => ?_) Iff.rfl
  rw [Symbol.ofType, hsize hfull]

theorem declare_eq_ok {address : Nat} (h : t.declare name type = .ok (address, t')) :
    address = t.memorySize ∧ t'.symbols = t.symbols ++ [.ofType name type address] := by
  rw [declare_eq] at h
  obtain ⟨t'', hinsert, hpair⟩ := Attempt.map_eq_ok h
  obtain ⟨rfl, rfl⟩ := Prod.mk.inj hpair
  obtain ⟨-, -, rfl⟩ := insert_eq_ok hinsert
  exact ⟨rfl, rfl⟩

theorem getElem?_defaultCells {a : Nat} (ha : a < t.memorySize) :
    t.defaultCells[a]? = some (t.initial a) := by
  rw [defaultCells, getElem?_foldl_set, Array.getElem?_replicate, if_pos ha]
  rfl

theorem Valid.sound (h : t.Valid) : Sound t t.symbols where
  order := rfl
  names := h.names
  addresses := h.addresses
  lookup _ _ := h.get?_eq_some_iff
  insert_refused _ _ := insert_eq_error_iff
  declare_refused _ _ _ := h.declare_eq_error_iff
  declared name type address t' hdeclare := by
    obtain ⟨rfl, hsymbols⟩ := declare_eq_ok hdeclare
    exact ⟨fun s hs => address_lt_memorySize hs, hsymbols⟩
  unchanged c e hanswer := by
    rcases call_cases t c with ⟨⟨address, hok⟩, -⟩ | ⟨-, -, -, hsame⟩
    · cases hanswer.symm.trans hok
    · exact hsame
  size := size_defaultCells t
  cells _ ha := getElem?_defaultCells ha

end SymbolTable

/-! ## Tables with an index -/

open SymbolTable (Call Answer)

/-- **A table that is changed in place.** Its index has the place of each name among the symbols. -/
structure IndexedTable where
  symbols : Array Symbol
  places : String → Option Nat

namespace IndexedTable

variable {x : IndexedTable} {t t' : SymbolTable} {s : Symbol} {name : String}

def empty : IndexedTable := ⟨#[], fun _ => none⟩

/-- **Lookup** trusts the index: there is no symbol at a place outside the table, which is `some none`. -/
def get? (x : IndexedTable) (name : String) : Option (Option Symbol) :=
  (x.places name).map fun i => x.symbols[i]?

/-- Sums of addresses stick at the largest number of 64 bits. -/
def memorySize (x : IndexedTable) : Nat :=
  x.symbols.foldl (fun n s => max n (min (s.address + 1) (2 ^ 64 - 1))) 0

/-- **Insertion** enters the name into the index, and then the symbol. -/
def insert (x : IndexedTable) (s : Symbol) : Except AssemblyError Unit × IndexedTable :=
  if wordLimit ≤ s.address then (.error (.addressOverflow s.address), x)
  else if (x.places s.name).isSome then (.error (.duplicateSymbol s.name), x)
  else
    let named := { x with places := fun name => if s.name = name then some x.symbols.size else x.places name }
    (.ok (), { named with symbols := named.symbols.push s })

def declare (x : IndexedTable) (name : String) (type : ValueType) : Except AssemblyError Nat × IndexedTable :=
  let address := x.memorySize
  let (answer, next) := x.insert (.ofType name type address)
  (answer.map fun _ => address, next)

def call (x : IndexedTable) : Call → Answer × IndexedTable
  | .insert s => ((x.insert s).1.map fun _ => none, (x.insert s).2)
  | .declare name type => ((x.declare name type).1.map some, (x.declare name type).2)

/-- A store that fails outside the cells. -/
def storeDefault? (cells : Array Value) (s : Symbol) : Option (Array Value) :=
  if h : s.address < cells.size then some (cells.set s.address s.default h) else none

/-- **Default memory,** with every store checked. -/
def defaultCells? (x : IndexedTable) : Option (Array Value) :=
  x.symbols.foldlM storeDefault? (Array.replicate x.memorySize .void)

/-- **The index is in step** with the symbols, and the table is the valid one `t`. -/
structure InStep (x : IndexedTable) (t : SymbolTable) : Prop where
  valid : t.Valid
  symbols : x.symbols.toList = t.symbols
  places : ∀ name, x.places name = t.symbols.findIdx? (·.name == name)

theorem inStep_empty : InStep .empty .empty := ⟨SymbolTable.valid_empty, rfl, fun _ => rfl⟩

theorem InStep.isSome_places (h : InStep x t) : (x.places name).isSome = true ↔ ∃ s ∈ t.symbols, s.name = name := by
  rw [h.places, List.findIdx?_isSome]
  simp

/-- A place in the index is one in the table, and what is there is what a search finds. -/
theorem InStep.get?_eq (h : InStep x t) (name : String) : x.get? name = (t.get? name).map some := by
  rw [get?, h.places, SymbolTable.get?, List.find?_eq_bind_findIdx?_getElem?]
  cases hplace : t.symbols.findIdx? (·.name == name) with
  | none => rfl
  | some i =>
      obtain ⟨hi, -⟩ := List.findIdx?_eq_some_iff_getElem.mp hplace
      have hat : x.symbols[i]? = some t.symbols[i] := by
        rw [← Array.getElem?_toList, h.symbols, List.getElem?_eq_getElem hi]
      simp [hat, List.getElem?_eq_getElem hi]

/-- No sum sticks, as the addresses fit a word. -/
theorem InStep.memorySize_eq (h : InStep x t) : x.memorySize = t.memorySize := by
  rw [memorySize, SymbolTable.memorySize, ← Array.foldl_toList, h.symbols]
  refine List.foldl_ext _ _ _ ?_
  intro n s hs
  have hfits : s.address < 2 ^ 32 := h.valid.addresses s hs
  rw [Nat.min_eq_left (by omega)]

theorem foldlM_storeDefault? {symbols : List Symbol} {cells : Array Value}
    (h : ∀ s ∈ symbols, s.address < cells.size) : symbols.foldlM storeDefault? cells =
      some (symbols.foldl (fun cells s => cells.setIfInBounds s.address s.default) cells) := by
  induction symbols generalizing cells with
  | nil => rfl
  | cons s rest ih =>
      rw [List.forall_mem_cons] at h
      have hstore : storeDefault? cells s = some (cells.setIfInBounds s.address s.default) := by
        rw [storeDefault?, dif_pos h.1, Array.setIfInBounds, dif_pos h.1]
      rw [List.foldlM_cons, hstore, List.foldl_cons]
      refine ih fun s' hs' => ?_
      rw [Array.size_setIfInBounds]
      exact h.2 s' hs'

/-- **No store is outside.** Every symbol has its cell. -/
theorem InStep.defaultCells?_eq (h : InStep x t) : x.defaultCells? = some t.defaultCells := by
  rw [defaultCells?, ← Array.foldlM_toList, h.symbols, h.memorySize_eq, foldlM_storeDefault?]
  · rfl
  · intro s hs
    rw [Array.size_replicate]
    exact SymbolTable.address_lt_memorySize hs

theorem InStep.insert_of_error (h : InStep x t) {e : AssemblyError} (hinsert : t.insert s = .error e) :
    x.insert s = (.error e, x) := by
  unfold insert
  rcases SymbolTable.insert_eq_error_iff.mp hinsert with ⟨hlarge, rfl⟩ | ⟨hfits, htaken, rfl⟩
  · rw [if_pos hlarge]
  · rw [if_neg (Nat.not_le.mpr hfits), if_pos (h.isSome_places.mpr htaken)]

/-- The new name is at the place that the symbol is put to, and the other names stay where they were. -/
theorem InStep.insert_of_ok (h : InStep x t) (hinsert : t.insert s = .ok t') :
    (x.insert s).1 = .ok () ∧ InStep (x.insert s).2 t' := by
  obtain ⟨hfits, hfree, rfl⟩ := SymbolTable.insert_eq_ok hinsert
  have hnew : ¬(x.places s.name).isSome = true := by
    rw [h.isSome_places]
    rintro ⟨s', hs', heq⟩
    exact hfree s' hs' heq
  have hsize : x.symbols.size = t.symbols.length := by rw [← h.symbols, Array.length_toList]
  rw [insert, if_neg (Nat.not_le.mpr hfits), if_neg hnew]
  refine ⟨rfl, h.valid.snoc hfits hfree, ?_, ?_⟩
  · rw [Array.toList_push, h.symbols]
  · intro name
    rw [List.findIdx?_append, ← h.places]
    by_cases hname : s.name = name
    · subst hname
      rw [Option.not_isSome_iff_eq_none.mp hnew]
      simp [hsize]
    · simp [hname]

/-- **One call.** Both tables answer the same, and stay in step whether it is refused or not. -/
theorem InStep.call (h : InStep x t) (c : Call) :
    (x.call c).1 = (t.call c).1 ∧ InStep (x.call c).2 (t.call c).2 := by
  cases c with
  | insert s =>
      simp only [IndexedTable.call, SymbolTable.call]
      cases hinsert : t.insert s with
      | error e =>
          rw [h.insert_of_error hinsert]
          exact ⟨rfl, h⟩
      | ok t' =>
          obtain ⟨hanswer, hnext⟩ := h.insert_of_ok hinsert
          exact ⟨by rw [hanswer]; rfl, hnext⟩
  | declare name type =>
      simp only [IndexedTable.call, SymbolTable.call, IndexedTable.declare, SymbolTable.declare_eq, h.memorySize_eq]
      cases hinsert : t.insert (.ofType name type t.memorySize) with
      | error e =>
          rw [h.insert_of_error hinsert]
          exact ⟨rfl, h⟩
      | ok t' =>
          obtain ⟨hanswer, hnext⟩ := h.insert_of_ok hinsert
          exact ⟨by rw [hanswer]; rfl, hnext⟩

theorem InStep.next_eq (h : InStep x t) (c : Call) : (x.call c).2 = (x.insert (c.symbol t)).2 := by
  cases c with
  | insert s => rfl
  | declare name type =>
      change (x.insert (.ofType name type x.memorySize)).2 = _
      rw [h.memorySize_eq, Call.symbol]

/-- **Calls** one after the other answer the same, too. -/
theorem InStep.all (h : InStep x t) (calls : List Call) :
    (Call.all IndexedTable.call x calls).1 = (Call.all SymbolTable.call t calls).1 ∧
      InStep (Call.all IndexedTable.call x calls).2 (Call.all SymbolTable.call t calls).2 := by
  induction calls generalizing x t with
  | nil => exact ⟨rfl, h⟩
  | cons c rest ih =>
      obtain ⟨hanswer, hnext⟩ := h.call c
      obtain ⟨hanswers, hlast⟩ := ih hnext
      exact ⟨congrArg₂ List.cons hanswer hanswers, hlast⟩

/-- **What an indexed table presents:** it is the plain one, for lookups, sizes and defaults, and refuses a call
before it has changed anything. -/
structure Presents (x : IndexedTable) (t : SymbolTable) : Prop where
  symbols : x.symbols.toList = t.symbols
  lookup : ∀ name, x.get? name = (t.get? name).map some
  size : x.memorySize = t.memorySize
  cells : x.defaultCells? = some t.defaultCells
  answers : ∀ c, (x.call c).1 = (t.call c).1
  unchanged : ∀ c e, (x.call c).1 = .error e → (x.call c).2 = x

theorem InStep.presents (h : InStep x t) : Presents x t where
  symbols := h.symbols
  lookup := h.get?_eq
  size := h.memorySize_eq
  cells := h.defaultCells?_eq
  answers c := (h.call c).1
  unchanged c e hanswer := by
    have hplain : (t.call c).1 = .error e := (h.call c).1.symm.trans hanswer
    rcases SymbolTable.call_cases t c with ⟨⟨address, hok⟩, -⟩ | ⟨e', -, hinsert, -⟩
    · cases hplain.symm.trans hok
    · rw [h.next_eq c, h.insert_of_error hinsert]

end IndexedTable

/-- **Symbol tables are sound.** For all calls, of which any may be refused: a new table has at the end the symbols
of those accepted, in their order, under different names and with addresses below `2^32`, and finds each under its
name. A call is refused for its address or for its name, and then changes nothing; a declaration goes above all
addresses, and is refused for its address exactly if the last one is taken. The default memory has the last default
of each cell, and void in the gaps. A table with an index that is changed in place answers every call in the same
way, and neither its lookups nor its stores of defaults are ever outside. -/
theorem symbols_sound (calls : List Call) :
    (Call.all SymbolTable.call .empty calls).2.Sound (SymbolTable.empty.accepted calls) ∧
    (Call.all IndexedTable.call .empty calls).1 = (Call.all SymbolTable.call .empty calls).1 ∧
    (Call.all IndexedTable.call .empty calls).2.Presents (Call.all SymbolTable.call .empty calls).2 := by
  obtain ⟨hanswers, hstep⟩ := IndexedTable.inStep_empty.all calls
  refine ⟨?_, hanswers, hstep.presents⟩
  have hsymbols : (Call.all SymbolTable.call .empty calls).2.symbols = SymbolTable.empty.accepted calls :=
    SymbolTable.symbols_all .empty calls
  rw [← hsymbols]
  exact hstep.valid.sound

/-- Nothing can be declared above the last address, and what is refused leaves its name free. -/
example : (Call.all SymbolTable.call .empty [.insert (.ofType "last" .int 0xffffffff), .declare "next" .int,
    .insert (.ofType "next" .int 7), .insert (.ofType "last" .int 8)]).1 =
      [.ok none, .error (.addressOverflow 0x100000000), .ok none, .error (.duplicateSymbol "last")] := rfl

end CogMachine
