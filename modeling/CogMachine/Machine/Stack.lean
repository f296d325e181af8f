import CogMachine.Fault

/-!
# Stacks

A stack holds its elements top first and carries its height, so that asking for the height takes no
walk over the elements. Operands and active calls are both kept on stacks. What an operation does is
said through the elements, which determine a stack (`ext`), and through `toList`, which gives them
bottom first.
-/

namespace CogMachine

/-- Elements on top of one another. -/
structure Stack (α : Type) where
  /-- The elements, top first. -/
  items : List α
  /-- The number of elements. -/
  height : Nat
  height_eq : height = items.length
  deriving DecidableEq, Repr

namespace Stack

variable {α : Type}

@[ext] theorem ext {s t : Stack α} (h : s.items = t.items) : s = t := by
  obtain ⟨items, m, hm⟩ := s
  obtain ⟨items', n, hn⟩ := t
  subst hm hn h
  rfl

def empty : Stack α := ⟨[], 0, rfl⟩

instance : Inhabited (Stack α) := ⟨empty⟩

/-- The stack of the given elements, bottom first. -/
def ofList (bottomFirst : List α) : Stack α := ⟨bottomFirst.reverse, bottomFirst.length, by simp⟩

/-- The elements, bottom first. -/
def toList (s : Stack α) : List α := s.items.reverse

def isEmpty (s : Stack α) : Bool := s.items.isEmpty

def push (s : Stack α) (a : α) : Stack α := ⟨a :: s.items, s.height + 1, by simp [s.height_eq]⟩

/-- The top element, if there is one. -/
def top? (s : Stack α) : Option α := s.items.head?

/-- The top element and the stack below it, if there is one. -/
def pop? : Stack α → Option (α × Stack α)
  | ⟨[], _, _⟩ => none
  | ⟨a :: below, height, h⟩ => some (a, ⟨below, height - 1, by simp [h]⟩)

/-- **Popping** takes the top element off. -/
def pop (s : Stack α) : Except Fault.Cause (α × Stack α) :=
  match s.pop? with
  | none => .error .stackUnderflow
  | some popped => .ok popped

/-- The top element, which stays. -/
def peek (s : Stack α) : Except Fault.Cause α :=
  match s.top? with
  | none => .error .stackUnderflow
  | some a => .ok a

def modifyTop (s : Stack α) (g : α → α) : Stack α :=
  ⟨s.items.modifyHead g, s.height, by simp [s.height_eq]⟩

/-- **Truncation.** Takes elements off until at most `height` are left. -/
def truncate (s : Stack α) (height : Nat) : Stack α :=
  ⟨s.items.drop (s.height - height), min s.height height, by simp [s.height_eq]; omega⟩

theorem eq_empty_or_push (s : Stack α) : s = empty ∨ ∃ t a, s = push t a := by
  obtain ⟨_ | ⟨a, below⟩, height, h⟩ := s
  · exact .inl (ext rfl)
  · exact .inr ⟨⟨below, below.length, rfl⟩, a, ext rfl⟩

@[simp] theorem isEmpty_empty : (empty : Stack α).isEmpty = true := rfl

@[simp] theorem isEmpty_push (s : Stack α) (a : α) : (s.push a).isEmpty = false := rfl

theorem isEmpty_iff {s : Stack α} : s.isEmpty = true ↔ s = empty := by
  rcases s.eq_empty_or_push with rfl | ⟨t, a, rfl⟩
  · simp
  · simp only [isEmpty_push, Bool.false_eq_true, false_iff]
    intro h
    cases congrArg items h

@[simp] theorem pop?_empty : (empty : Stack α).pop? = none := rfl

@[simp] theorem pop?_push (s : Stack α) (a : α) : (s.push a).pop? = some (a, s) := rfl

@[simp] theorem pop_push (s : Stack α) (a : α) : (s.push a).pop = .ok (a, s) := rfl

@[simp] theorem height_empty : (empty : Stack α).height = 0 := rfl

@[simp] theorem height_push (s : Stack α) (a : α) : (s.push a).height = s.height + 1 := rfl

@[simp] theorem height_modifyTop (s : Stack α) (g : α → α) : (s.modifyTop g).height = s.height :=
  rfl

@[simp] theorem toList_push (s : Stack α) (a : α) : (s.push a).toList = s.toList ++ [a] := by
  simp [push, toList]

@[simp] theorem modifyTop_push (s : Stack α) (a : α) (g : α → α) :
    (s.push a).modifyTop g = s.push (g a) := rfl

def map {β : Type} (g : α → β) (s : Stack α) : Stack β :=
  ⟨s.items.map g, s.height, by simp [s.height_eq]⟩

@[simp] theorem map_empty {β : Type} (g : α → β) : (empty : Stack α).map g = empty := rfl

@[simp] theorem map_push {β : Type} (g : α → β) (s : Stack α) (a : α) :
    (s.push a).map g = (s.map g).push (g a) := rfl

@[simp] theorem height_map {β : Type} (g : α → β) (s : Stack α) : (s.map g).height = s.height := rfl

@[simp] theorem toList_map {β : Type} (g : α → β) (s : Stack α) :
    (s.map g).toList = s.toList.map g := by
  simp [map, toList]

@[simp] theorem top?_map {β : Type} (g : α → β) (s : Stack α) : (s.map g).top? = s.top?.map g := by
  simp [map, top?]

theorem toList_truncate (s : Stack α) (n : Nat) : (s.truncate n).toList = s.toList.take n := by
  simp [truncate, toList, s.height_eq, List.reverse_drop]
  omega

end Stack
end CogMachine
