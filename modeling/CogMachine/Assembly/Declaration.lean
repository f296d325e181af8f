import CogMachine.Assembly.Line
import CogMachine.Script.Symbol
import CogMachine.Value.Reading

/-!
# Declarations of symbols

The directive `.symbol` is followed by a type, a name, and optionally an equals sign with a default
and the word `local`. Each declaration takes the first address above those before it.
-/

namespace CogMachine.Assembly

/-- The text without the word `local` at its end, and whether it was there. The word counts on its
own or after a blank. -/
def splitLocal (cs : List Char) : List Char × Bool :=
  let word := "local".toList
  if cs = word then ([], true)
  else
    let head := cs.take (cs.length - word.length)
    if head ++ word = cs && head.getLast?.any Text.isBlank then (Text.trimEnd head, true)
    else (cs, false)

def invalidLiteral (line : Nat) (literal : List Char) : AssemblyError :=
  .badOperand line s!"invalid literal '{String.ofList literal}'"

/-- The default that a declaration gives, if it gives one. -/
def declaredDefault (line : Nat) (cs : List Char) : Except AssemblyError (Option Value) :=
  match cs with
  | [] => .ok none
  | '=' :: rest =>
    let literal := Text.trim rest
    match Value.ofText? literal with
    | some v => .ok (some v)
    | none => .error (invalidLiteral line literal)
  | _ => .error (.badOperand line s!"unexpected '{String.ofList cs}' after symbol name")

/-- **Declaration.** The table with the symbol of a `.symbol` line, whose text after the keyword is
given. -/
def declareSymbol (t : SymbolTable) (line : Nat) (cs : List Char) :
    Except AssemblyError SymbolTable := do
  let (typeWord, afterType) := Text.splitWord (Text.trim cs)
  let (name, afterName) := Text.splitWord (Text.trim afterType)
  if typeWord.isEmpty || !isName name then
    throw (.badOperand line ".symbol expects '<type> <name> [= literal] [local]'")
  match ValueType.ofText? (String.ofList typeWord) with
  | none => throw (.unknownType line (String.ofList typeWord))
  | some type =>
    let (declared, isLocal) := splitLocal (Text.trim afterName)
    let given ← declaredDefault line declared
    let s := Symbol.ofType (String.ofList name) type t.memorySize
    t.insert { s with default := given.getD s.default, isLocal := isLocal }

/-- **Declarations** of a source, in order. -/
def declareSymbols (lines : List Line) : Except AssemblyError SymbolTable :=
  lines.foldlM (fun t line =>
    match directive? line.text with
    | some (keyword, rest) =>
      if keyword = "symbol".toList then declareSymbol t line.number rest else .ok t
    | none => .ok t) .empty

end CogMachine.Assembly
