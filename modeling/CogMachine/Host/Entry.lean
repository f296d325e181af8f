import CogMachine.Text.Blank
import CogMachine.Text.Numeral

/-!
# Entries

Where a run starts: at a message's handler, or at an offset of the program.
-/

namespace CogMachine.Host

/-- Where a run starts. -/
inductive Entry where
  | message (name : String)
  | offset (n : Nat)
  deriving DecidableEq, Inhabited, Repr

namespace Entry

def emptyMessage : String := "entry must not be empty"

/-- **Reading an entry.** Blanks around it do not count; a number is an offset, any other text that is
not empty a message. -/
def ofText? (text : String) : Option Entry :=
  let body := Text.trim text.toList
  if body.isEmpty then none
  else match Text.unsigned? body with
    | some n => some (offset n)
    | none => some (message (String.ofList body))

def text : Entry → String
  | message name => name
  | offset n => String.ofList (Text.digitsOfNat n)

end Entry
end CogMachine.Host
