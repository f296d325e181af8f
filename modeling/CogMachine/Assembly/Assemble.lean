import CogMachine.Assembly.Draft
import CogMachine.Script.Basic

/-!
# Assembly

`assemble` turns a source text into a script. Symbols are declared first, so code may name symbols
declared below it. Then the lines are taken in order; the first error found is the result. Once all
lines are read, every name used as a branch operand must have been defined, and then every message
must have a label of its name.
-/

namespace CogMachine

namespace Assembly

/-- A draft, and the messages named so far with the numbers of their lines, latest first. -/
structure Progress where
  draft : Draft
  messages : List (Nat × String)
  deriving Inhabited

/-- **One line** of source. Declarations were taken before. -/
def takeLine (t : SymbolTable) (verbs : String → Option VerbId) (p : Progress) (line : Line) :
    Except AssemblyError Progress :=
  match directive? line.text with
  | none => (codeLine t verbs p.draft line).map fun d => { p with draft := d }
  | some (keyword, rest) =>
    if keyword = "symbol".toList then .ok p
    else if keyword = "message".toList then
      let label := Text.trim rest
      if isName label then
        .ok { p with messages := (line.number, String.ofList label) :: p.messages }
      else .error (.badOperand line.number ".message expects a label name")
    else .error (.unknownDirective line.number (String.ofList ('.' :: keyword)))

/-- The first name used as a branch operand, in the order of use, that is defined nowhere. -/
def undefinedReference? (d : Draft) : Option String :=
  d.referenced.reverse.find? fun name => (d.position? name).isNone

def exportMessage (d : Draft) (t : ExportTable) (message : Nat × String) :
    Except AssemblyError ExportTable :=
  let (line, name) := message
  match d.position? name with
  | none => .error (.unresolvedLabel name)
  | some offset =>
    match t.insert name offset with
    | .error (.duplicateMessage _) =>
      .error (.badOperand line s!"message '{name}' exported twice")
    | result => result

end Assembly

open Assembly in
/-- **Assembly** of a source text. `verbs` gives the id of each verb that the host knows. -/
def assemble (name source : String) (verbs : String → Option VerbId) :
    Except AssemblyError Script := do
  let lines := linesOf source
  let symbols ← declareSymbols lines
  let progress ← lines.foldlM (takeLine symbols verbs) ⟨.empty, []⟩
  match undefinedReference? progress.draft with
  | some label => throw (.unresolvedLabel label)
  | none =>
    let exports ← progress.messages.reverse.foldlM (exportMessage progress.draft) .empty
    let program ← progress.draft.builder.finish
    return ⟨name, program, symbols, exports⟩

end CogMachine
