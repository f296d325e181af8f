import CogMachine.Bytecode.Opcode
import CogMachine.Fault
import CogMachine.Text.Quoted

/-!
# Verb tables

A verb is an operation of the host that scripts can call. A table numbers its verbs in the order in
which their names were first registered; registering a name again replaces the handler and keeps
the number. Handlers are of any type, since the two engines lend different things to them.
-/

namespace CogMachine

/-- A named handler. -/
structure Verb (H : Type) where
  name : String
  handler : H

/-- Verbs in the order of their ids. -/
structure VerbTable (H : Type) where
  verbs : List (Verb H)

namespace VerbTable

variable {H : Type}

def empty : VerbTable H := ⟨[]⟩

def index? (t : VerbTable H) (name : String) : Option Nat :=
  t.verbs.findIdx? (·.name == name)

def idOf? (t : VerbTable H) (name : String) : Option VerbId :=
  (t.index? name).map fun i => ⟨Int32.ofNat i⟩

/-- **Registration.** -/
def add (t : VerbTable H) (name : String) (handler : H) : VerbTable H :=
  match t.index? name with
  | some i => ⟨t.verbs.modify i fun v => { v with handler := handler }⟩
  | none => ⟨t.verbs ++ [⟨name, handler⟩]⟩

/-- **Look-up by id.** -/
def get (t : VerbTable H) (id : VerbId) : Except Fault.Cause (Verb H) :=
  match if id.number < 0 then none else t.verbs[id.number.toInt.toNat]? with
  | some v => .ok v
  | none => .error (.unknownVerb id.number)

def size (t : VerbTable H) : Nat := t.verbs.length

def isEmpty (t : VerbTable H) : Bool := t.verbs.isEmpty

def names (t : VerbTable H) : List String := t.verbs.map (·.name)

def summary (t : VerbTable H) : String :=
  let quoted := t.names.map fun name => String.ofList (Text.quote name.toList)
  "[" ++ ", ".intercalate quoted ++ "]"

/-- An id that is no position of the table finds nothing. -/
theorem get_eq (t : VerbTable H) (id : VerbId) :
    t.get id = if id.number.toInt < 0 then .error (.unknownVerb id.number)
      else match t.verbs[id.number.toInt.toNat]? with
        | some v => .ok v
        | none => .error (.unknownVerb id.number) := by
  have hneg : id.number < 0 ↔ id.number.toInt < 0 := Int32.lt_iff_toInt_lt
  by_cases h : id.number < 0
  · simp only [get, if_pos h, if_pos (hneg.mp h)]
  · simp only [get, if_neg h, if_neg (fun hn => h (hneg.mpr hn))]

theorem get_eq_ok {t : VerbTable H} {id : VerbId} {v : Verb H} (h : t.get id = .ok v) :
    0 ≤ id.number.toInt ∧ t.verbs[id.number.toInt.toNat]? = some v := by
  rw [get_eq] at h
  by_cases hneg : id.number.toInt < 0
  · rw [if_pos hneg] at h
    cases h
  · rw [if_neg hneg] at h
    cases hv : t.verbs[id.number.toInt.toNat]? with
    | none =>
        rw [hv] at h
        cases h
    | some w =>
        rw [hv] at h
        cases h
        exact ⟨by omega, rfl⟩

theorem mem_of_get {t : VerbTable H} {id : VerbId} {v : Verb H} (h : t.get id = .ok v) : v ∈ t.verbs :=
  List.mem_of_getElem? (get_eq_ok h).2

theorem get_eq_error {t : VerbTable H} {id : VerbId} {cause : Fault.Cause} (h : t.get id = .error cause) :
    cause = .unknownVerb id.number := by
  unfold get at h
  split at h
  · cases h
  · cases h
    rfl

/-- A handler that is replaced is found under its number. -/
theorem get_add_self {t : VerbTable H} {name : String} {i : Nat} {id : VerbId} (handler : H)
    (hi : t.index? name = some i) (hid : id.number.toInt = i) :
    (t.add name handler).get id = (t.get id).map fun v => { v with handler } := by
  have hpos : ¬ id.number.toInt < 0 := by omega
  have hnat : id.number.toInt.toNat = i := by omega
  simp only [get_eq, add, hi, if_neg hpos, hnat, List.getElem?_modify_eq]
  cases t.verbs[i]? <;> rfl

theorem get_add_of_ne {t : VerbTable H} {name : String} {i : Nat} {id : VerbId} (handler : H)
    (hi : t.index? name = some i) (hid : id.number.toInt ≠ i) :
    (t.add name handler).get id = t.get id := by
  simp only [get_eq, add, hi]
  by_cases hneg : id.number.toInt < 0
  · rw [if_pos hneg, if_pos hneg]
  · have hne : i ≠ id.number.toInt.toNat := by omega
    rw [if_neg hneg, if_neg hneg, List.getElem?_modify_ne _ _ hne]

end VerbTable
end CogMachine
