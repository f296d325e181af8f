import CogMachine.Machine.Limits
import CogMachine.Text.Json

/-!
# Limits from a Json text

A limits file is an object with any of three keys, other keys being of no account, or an array of at
most three numbers in the order call depth, stack depth, restarts. What is missing keeps its
standard value.
-/

namespace CogMachine

open Text.Json

namespace Limits

def setAt (l : Limits) (place n : Nat) : Limits :=
  match place with
  | 0 => { l with callDepth := n }
  | 1 => { l with stackDepth := n }
  | _ => { l with restarts := n }

def keyPlace? (key : String) : Option Nat :=
  ["max_call_depth", "max_stack_depth", "max_restarts"].findIdx? (· == key)

/-- The members of an object after its opening brace or after a comma. `seen` holds the places
already set; none may be set twice. The bound is on the number of members. -/
def ofMembers? : Nat → List Token → Limits → List Nat → Option Limits
  | 0, _, _, _ => none
  | bound + 1, .string (some key) :: .colon :: ts, l, seen => do
    let (l, seen, ts) ← match keyPlace? key, ts with
      | some place, .number (some n) :: ts =>
        if seen.contains place then none else some (l.setAt place n, place :: seen, ts)
      | some _, _ => none
      | none, ts => (skip ts).map fun ts => (l, seen, ts)
    match ts with
    | [.closeObject] => some l
    | .comma :: ts => ofMembers? bound ts l seen
    | _ => none
  | _ + 1, _, _, _ => none

def ofElements? : List Token → Nat → Limits → Option Limits
  | .number (some n) :: ts, place, l =>
    if 3 ≤ place then none
    else match ts with
      | [.closeArray] => some (l.setAt place n)
      | .comma :: ts => ofElements? ts (place + 1) (l.setAt place n)
      | _ => none
  | _, _, _ => none

/-- **Reading** a limits file. -/
def ofJson? (text : String) : Option Limits := do
  let tokens ← tokens? text.toList
  match tokens with
  | [.openObject, .closeObject] => some .standard
  | [.openArray, .closeArray] => some .standard
  | .openObject :: ts => ofMembers? ts.length ts .standard []
  | .openArray :: ts => ofElements? ts 0 .standard
  | _ => none

end Limits
end CogMachine
