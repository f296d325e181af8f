import CogMachine.Text.Lines

/-!
# Lines of source

Source text is read line by line. A line keeps its number, counted from one, and the text between
its outer blanks and in front of its comment; lines without such text are dropped. What is left
either starts with a point and is a directive, or is code: a label, an instruction, or both.
-/

namespace CogMachine.Assembly

/-- A line of source that says something. -/
structure Line where
  number : Nat
  text : List Char
  deriving DecidableEq, Inhabited, Repr

/-- **Lines** of a source text that are left without comments and blanks. -/
def linesOf (source : String) : List Line :=
  ((Text.lines source.toList).zipIdx 1).filterMap fun (cs, number) =>
    let text := Text.trim (Text.dropComment cs)
    if text.isEmpty then none else some ⟨number, text⟩

/-- Whether a character may start a name: an ASCII letter or an underscore. -/
def isNameStart (c : Char) : Bool := c.isAlpha || c == '_'

/-- Whether a character may stand in a name: as at its start, or an ASCII digit. -/
def isNameChar (c : Char) : Bool := c.isAlphanum || c == '_'

/-- **Names** of symbols and labels. -/
def isName : List Char → Bool
  | [] => false
  | c :: cs => isNameStart c && cs.all isNameChar

def directive? : List Char → Option (List Char × List Char)
  | '.' :: rest => some (Text.splitWord rest)
  | _ => none

/-- **Label.** The name in front of the line's first colon, if it is a name, and the text after. -/
def splitLabel? (cs : List Char) : Option (List Char × List Char) :=
  (Text.splitAt? ':' cs).filter fun (head, _) => isName head

end CogMachine.Assembly
