import CogMachine.Text.Numeral

/-!
# Json tokens

A Json text is cut into tokens before its grammar is read. A string keeps its characters, unless it
holds half of a surrogate pair and so denotes no text; a number keeps its value if it is written as a
whole number below `2^64`. `Json.skip` reads one value of any shape and gives the tokens after it.
-/

namespace CogMachine.Text.Json

/-- A token. -/
inductive Token where
  | openObject | closeObject | openArray | closeArray | comma | colon
  /-- One of the words `true`, `false` and `null`. -/
  | word
  | string (content : Option String)
  | number (whole : Option Nat)
  deriving DecidableEq, Inhabited, Repr

/-- Part of a string: a character, or the UTF-16 unit that an escape names. -/
inductive Piece where
  | char (c : Char)
  | unit (n : Nat)

/-- **Joining.** The text of a string, if every surrogate unit is half of a pair. -/
def joinPieces : List Piece → Option (List Char)
  | [] => some []
  | .char c :: rest => (joinPieces rest).map (c :: ·)
  | .unit high :: .unit low :: rest =>
    if 0xd800 ≤ high && high < 0xdc00 then
      if 0xdc00 ≤ low && low < 0xe000 then
        (joinPieces rest).map
          (Char.ofNat (0x10000 + (high - 0xd800) * 0x400 + (low - 0xdc00)) :: ·)
      else none
    else if 0xdc00 ≤ high && high < 0xe000 then none
    else (joinPieces (.unit low :: rest)).map (Char.ofNat high :: ·)
  | .unit n :: rest =>
    if 0xd800 ≤ n && n < 0xe000 then none else (joinPieces rest).map (Char.ofNat n :: ·)

def hexValue? (c : Char) : Option Nat :=
  if c.isDigit then some (c.toNat - '0'.toNat)
  else if 'a' ≤ c && c ≤ 'f' then some (c.toNat - 'a'.toNat + 10)
  else if 'A' ≤ c && c ≤ 'F' then some (c.toNat - 'A'.toNat + 10)
  else none

def shortEscape? (c : Char) : Option Char :=
  if c = '"' || c = '\\' || c = '/' then some c
  else if c = 'b' then some (Char.ofNat 8)
  else if c = 'f' then some (Char.ofNat 12)
  else if c = 'n' then some '\n'
  else if c = 'r' then some '\r'
  else if c = 't' then some '\t'
  else none

/-- The pieces of a string up to its closing quote, and the text after that. A control character
must be escaped. -/
def pieces? : List Char → Option (List Piece × List Char)
  | [] => none
  | '\\' :: 'u' :: a :: b :: c :: d :: rest => do
    let a ← hexValue? a
    let b ← hexValue? b
    let c ← hexValue? c
    let d ← hexValue? d
    let (ps, rest) ← pieces? rest
    return (.unit (((a * 16 + b) * 16 + c) * 16 + d) :: ps, rest)
  | '\\' :: c :: rest => do
    let e ← shortEscape? c
    let (ps, rest) ← pieces? rest
    return (.char e :: ps, rest)
  | c :: rest =>
    if c = '"' then some ([], rest)
    else if c = '\\' || c.toNat < 0x20 then none
    else do
      let (ps, rest) ← pieces? rest
      return (.char c :: ps, rest)

/-- The digits of a whole part: a single zero, or digits that start with another one. -/
def wholePart? : List Char → Option (List Char × List Char)
  | '0' :: rest => some (['0'], rest)
  | cs =>
    let digits := cs.takeWhile Char.isDigit
    if digits.isEmpty then none else some (digits, cs.dropWhile Char.isDigit)

/-- The text after a fraction, and whether there was one. -/
def afterFraction? : List Char → Option (Bool × List Char)
  | '.' :: rest =>
    if (rest.takeWhile Char.isDigit).isEmpty then none
    else some (true, rest.dropWhile Char.isDigit)
  | cs => some (false, cs)

/-- The text after an exponent, and whether there was one. -/
def afterExponent? : List Char → Option (Bool × List Char)
  | c :: rest =>
    if c = 'e' || c = 'E' then
      let digits := (splitSign rest).2
      if (digits.takeWhile Char.isDigit).isEmpty then none
      else some (true, digits.dropWhile Char.isDigit)
    else some (false, c :: rest)
  | [] => some (false, [])

/-- A number, and the text after it. -/
def number? (cs : List Char) : Option (Token × List Char) := do
  let (negative, body) := match cs with
    | '-' :: rest => (true, rest)
    | _ => (false, cs)
  let (digits, rest) ← wholePart? body
  let (hasFraction, rest) ← afterFraction? rest
  let (hasExponent, rest) ← afterExponent? rest
  let whole :=
    if negative || hasFraction || hasExponent then none
    else (nat? digits).filter (· < unsignedLimit)
  return (.number whole, rest)

def isSpace (c : Char) : Bool := c == ' ' || c == '\t' || c == '\n' || c == '\r'

/-- The token at the start of a text that does not start with a space, and the text after it. -/
def token? (cs : List Char) : Option (Token × List Char) :=
  match cs with
  | [] => none
  | '{' :: rest => some (.openObject, rest)
  | '}' :: rest => some (.closeObject, rest)
  | '[' :: rest => some (.openArray, rest)
  | ']' :: rest => some (.closeArray, rest)
  | ',' :: rest => some (.comma, rest)
  | ':' :: rest => some (.colon, rest)
  | 't' :: 'r' :: 'u' :: 'e' :: rest => some (.word, rest)
  | 'f' :: 'a' :: 'l' :: 's' :: 'e' :: rest => some (.word, rest)
  | 'n' :: 'u' :: 'l' :: 'l' :: rest => some (.word, rest)
  | '"' :: rest => (pieces? rest).map fun (ps, rest) =>
    (.string ((joinPieces ps).map String.ofList), rest)
  | cs => number? cs

/-- The tokens of a text no longer than `n`. -/
def tokensWithin? : Nat → List Char → Option (List Token)
  | 0, cs => if cs.isEmpty then some [] else none
  | n + 1, cs =>
    match cs with
    | [] => some []
    | c :: rest =>
      if isSpace c then tokensWithin? n rest
      else do
        let (t, rest) ← token? cs
        let ts ← tokensWithin? n rest
        return t :: ts

/-- **Tokens** of a text. Each takes a character at least, so the length of the text bounds their
number. -/
def tokens? (cs : List Char) : Option (List Token) := tokensWithin? cs.length cs

/-- What may come next inside nested values. -/
inductive Expected where
  | value
  | firstElement
  | firstKey
  | key
  | colon
  | separator

/-- Reads on inside the open objects (`true`) and arrays (`false`), innermost first, until the last
is closed, and gives the tokens after that. -/
def skipInside : List Token → Expected → List Bool → Option (List Token)
  | [], _, _ => none
  | t :: ts, e, opened =>
    let done : List Bool → Option (List Token) := fun outer =>
      match outer with
      | [] => some ts
      | _ => skipInside ts .separator outer
    match e, t with
    | .value, .word | .firstElement, .word => done opened
    | .value, .string _ | .firstElement, .string _ => done opened
    | .value, .number _ | .firstElement, .number _ => done opened
    | .value, .openObject | .firstElement, .openObject => skipInside ts .firstKey (true :: opened)
    | .value, .openArray | .firstElement, .openArray => skipInside ts .firstElement (false :: opened)
    | .firstElement, .closeArray => done opened.tail
    | .firstKey, .closeObject => done opened.tail
    | .firstKey, .string _ | .key, .string _ => skipInside ts .colon opened
    | .colon, .colon => skipInside ts .value opened
    | .separator, .comma =>
      skipInside ts (if opened.headD false then .key else .value) opened
    | .separator, .closeObject => if opened.headD false then done opened.tail else none
    | .separator, .closeArray => if opened.headD true then none else done opened.tail
    | _, _ => none

/-- **Skipping** one value. -/
def skip (ts : List Token) : Option (List Token) := skipInside ts .value []

end CogMachine.Text.Json
