/-!
# Services

A host hands objects of its own to the verbs it registered: at most one of each kind, where the kind
decides the type.
-/

namespace CogMachine

/-- Objects by kind. -/
structure Services {κ : Type} (τ : κ → Type) where
  entries : List ((k : κ) × τ k)

namespace Services

variable {κ : Type} {τ : κ → Type}

def empty : Services τ := ⟨[]⟩

instance : Inhabited (Services τ) := ⟨empty⟩

def size (s : Services τ) : Nat := s.entries.length

def isEmpty (s : Services τ) : Bool := s.entries.isEmpty

/-- The number of services, in words. -/
def summary (s : Services τ) : String := "ServiceRegistry \x7b services: " ++ toString s.size ++ " \x7d"

variable [DecidableEq κ]

def find? (k : κ) : List ((k : κ) × τ k) → Option (τ k)
  | [] => none
  | ⟨j, v⟩ :: rest => if h : j = k then some (h ▸ v) else find? k rest

def get? (s : Services τ) (k : κ) : Option (τ k) := find? k s.entries

def contains (s : Services τ) (k : κ) : Bool := (s.get? k).isSome

def erase (s : Services τ) (k : κ) : Services τ := ⟨s.entries.filter fun e => e.1 ≠ k⟩

/-- **Insertion.** A service of the same kind is replaced. -/
def insert (s : Services τ) (k : κ) (v : τ k) : Services τ := ⟨⟨k, v⟩ :: (s.erase k).entries⟩

@[simp] theorem get?_insert_self (s : Services τ) (k : κ) (v : τ k) :
    (s.insert k v).get? k = some v := by
  simp [insert, get?, find?]

end Services
end CogMachine
