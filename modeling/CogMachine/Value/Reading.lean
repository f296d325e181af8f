import CogMachine.Decimal.Reading
import CogMachine.Value.Basic

/-!
# Reading literals

`Value.ofText?` reads a literal as a script writes it: `void`, `true`, `false`, a quoted string, a
vector between parentheses, a handle as kind and id with a colon between, an integer, or a float. An
integer that does not fit is read as a float would be, so a large number without a point is a float too.
-/

namespace CogMachine.Value

/-- A vector's components between parentheses, separated by slashes or commas. -/
def vectorOfText? (body : List Char) : Option Vector3 :=
  match (Text.splitFields (fun c => c == '/' || c == ',') body).mapM
      (fun field => Single.ofText? (Text.trim field)) with
  | some [x, y, z] => some ⟨x, y, z⟩
  | _ => none

/-- The text between an opening parenthesis at the start and a closing one at the end. -/
def parenthesized? : List Char → Option (List Char)
  | '(' :: rest => if rest.getLast? = some ')' then some rest.dropLast else none
  | _ => none

/-- A handle's kind, in any case, and its id. -/
def handleOfText? (kind id : List Char) : Option Value :=
  (HandleKind.ofKeyword? (String.ofList ((Text.trim kind).map Char.toLower))).bind fun k =>
    (Text.int32? (Text.trim id)).map (handle k)

/-- An integer, or else a float, which may end in one `f`. -/
def numberOfText? (cs : List Char) : Option Value :=
  match Text.int32? cs with
  | some n => some (int n)
  | none =>
    let digits := if cs.getLast? = some 'f' then cs.dropLast else cs
    (Single.ofText? digits).map float

/-- A literal without blanks around it, that is none of the three words. -/
def bodyOfText? (cs : List Char) : Option Value :=
  match cs with
  | '"' :: body => (Text.unquote? body).map fun s => string (String.ofList s)
  | _ =>
    match parenthesized? cs with
    | some body => (vectorOfText? body).map vector
    | none =>
      match Text.splitAt? ':' cs with
      | some (kind, id) => handleOfText? kind id
      | none => numberOfText? cs

/-- **Reading a literal.** Blanks around it do not count. -/
def ofText? (cs : List Char) : Option Value :=
  let body := Text.trim cs
  if body.isEmpty then none
  else if body = "void".toList then some void
  else if body = "true".toList then some (bool true)
  else if body = "false".toList then some (bool false)
  else bodyOfText? body

end CogMachine.Value
