import CogMachine.Text.Blank

/-!
# Lines of a text

A line ends at a newline, and a carriage return just before the newline belongs to the ending. A
last line without an ending counts if it is not empty.
-/

namespace CogMachine.Text

def dropReturn (line : List Char) : List Char :=
  if line.getLast? = some '\r' then line.dropLast else line

/-- **Lines.** The pieces between newlines; the piece after the last newline is a line unless it is
empty, and keeps its carriage return. -/
def lines (cs : List Char) : List (List Char) :=
  let pieces := splitFields (· == '\n') cs
  let ended := pieces.dropLast.map dropReturn
  match pieces.getLast? with
  | none | some [] => ended
  | some last => ended ++ [last]

/-- The text without what follows and includes its first semicolon outside a quoted string. Inside a
string a backslash keeps the character after it from ending the string. -/
def dropComment : List Char → List Char := outside
where
  /-- Outside a string. -/
  outside : List Char → List Char
    | [] => []
    | c :: cs =>
      if c = ';' then []
      else if c = '"' then c :: inside cs
      else c :: outside cs
  /-- Inside a string. -/
  inside : List Char → List Char
    | [] => []
    | c :: cs =>
      if c = '\\' then c :: escaped cs
      else if c = '"' then c :: outside cs
      else c :: inside cs
  /-- Just after a backslash in a string. -/
  escaped : List Char → List Char
    | [] => []
    | c :: cs => c :: inside cs

end CogMachine.Text
