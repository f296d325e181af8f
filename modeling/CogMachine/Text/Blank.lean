import CogMachine.Text.Ranges

/-!
# Blank characters

Blanks are the 25 characters with the property White_Space. `trim` drops them at both ends and
`splitWord` cuts a text at the first of them.
-/

namespace CogMachine.Text

def blankRanges : List (Nat × Nat) := [
  (0x9, 0xd), (0x20, 0x20), (0x85, 0x85), (0xa0, 0xa0), (0x1680, 0x1680), (0x2000, 0x200a),
  (0x2028, 0x2029), (0x202f, 0x202f), (0x205f, 0x205f), (0x3000, 0x3000)]

def isBlank (c : Char) : Bool := inRanges blankRanges c.toNat

def trimStart (cs : List Char) : List Char := cs.dropWhile isBlank

def trimEnd (cs : List Char) : List Char := (cs.reverse.dropWhile isBlank).reverse

/-- **Trimming.** The text without the blanks at its ends. -/
def trim (cs : List Char) : List Char := trimEnd (trimStart cs)

/-- **First word.** The text up to the first blank, and the rest from that blank on. -/
def splitWord (cs : List Char) : List Char × List Char :=
  (cs.takeWhile (!isBlank ·), cs.dropWhile (!isBlank ·))

/-- The text in front of a separator's first place, and the text after it. -/
def splitAt? (separator : Char) (cs : List Char) : Option (List Char × List Char) :=
  match cs.dropWhile (· ≠ separator) with
  | [] => none
  | _ :: rest => some (cs.takeWhile (· ≠ separator), rest)

/-- **Fields.** The text cut at every character for which `isSeparator` holds; there is always
at least one field. -/
def splitFields (isSeparator : Char → Bool) : List Char → List (List Char)
  | [] => [[]]
  | c :: cs =>
    if isSeparator c then [] :: splitFields isSeparator cs
    else match splitFields isSeparator cs with
      | field :: fields => (c :: field) :: fields
      | [] => [[c]]

theorem append_splitWord (cs : List Char) : (splitWord cs).1 ++ (splitWord cs).2 = cs := by
  simp [splitWord]

end CogMachine.Text
