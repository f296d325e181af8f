import CogMachine.Value.HandleKind

/-!
# Types of values

A declared storage cell has a type, written as a keyword in any mix of upper and lower case.
-/

namespace CogMachine

/-- The type of a value or of a declared cell. -/
inductive ValueType where
  | void | int | float | bool | string | vector
  | handle (kind : HandleKind)
  deriving DecidableEq, Inhabited, Repr

namespace ValueType

def keyword : ValueType → String
  | void => "void"
  | int => "int"
  | float => "flex"
  | bool => "bool"
  | string => "string"
  | vector => "vector"
  | handle kind => kind.keyword

/-- **Reading a type.** ASCII letters may be of either case, and `float` is a second word for the
type `flex`. -/
def ofText? (text : String) : Option ValueType :=
  let word := text.map Char.toLower
  if word = "void" then some void
  else if word = "int" then some int
  else if word = "flex" || word = "float" then some float
  else if word = "bool" then some bool
  else if word = "string" then some string
  else if word = "vector" then some vector
  else (HandleKind.ofKeyword? word).map handle

def unknownMessage (text : String) : String := s!"unknown type '{text}'"

end ValueType
end CogMachine
