import CogMachine.Text.Blank
import CogMachine.Text.GraphemeExtend
import CogMachine.Text.Numeral
import CogMachine.Text.Unprintable

/-!
# Quoted strings

`quote` writes a string for a listing: between double quotes, with short escapes for the quote,
the backslash and four controls, and a code point in hexadecimal for every other character that is
unprintable or extends the one before it. `unquote?` reads a string of a script, which may use
four of the short escapes only.
-/

namespace CogMachine.Text

/-- Whether a listing shows a character by its code point. -/
def needsCodePoint (c : Char) : Bool := isGraphemeExtend c || isUnprintable c

/-- **One character** of a quoted string. -/
def quoteChar (c : Char) : List Char :=
  if c = '"' then ['\\', '"']
  else if c = '\\' then ['\\', '\\']
  else if c = '\n' then ['\\', 'n']
  else if c = '\r' then ['\\', 'r']
  else if c = '\t' then ['\\', 't']
  else if c.toNat = 0 then ['\\', '0']
  else if needsCodePoint c then ['\\', 'u', '\x7b'] ++ hexOfNat c.toNat ++ ['\x7d']
  else [c]

/-- **Quoting** for a listing. -/
def quote (cs : List Char) : List Char := '"' :: (cs.flatMap quoteChar ++ ['"'])

def escape? (c : Char) : Option Char :=
  if c = 'n' then some '\n'
  else if c = 't' then some '\t'
  else if c = '"' then some '"'
  else if c = '\\' then some '\\'
  else none

/-- **Reading a quoted string,** its opening quote already read. After the closing quote only blanks
may follow. -/
def unquote? : List Char → Option (List Char)
  | [] => none
  | '\\' :: c :: cs => (escape? c).bind fun e => (unquote? cs).map (e :: ·)
  | c :: cs =>
    if c = '"' then (if cs.all isBlank then some [] else none)
    else if c = '\\' then none
    else (unquote? cs).map (c :: ·)

end CogMachine.Text
