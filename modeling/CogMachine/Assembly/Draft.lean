import CogMachine.Assembly.Declaration
import CogMachine.Bytecode.Builder

/-!
# Drafts

A draft is a program being assembled: a builder, the builder's label for each name that the source
has used so far, and the names used as branch operands. `instruction` appends the instruction of one
line.
-/

namespace CogMachine.Assembly

/-- A program being assembled. -/
structure Draft where
  builder : Builder
  /-- The label of each name, latest first. -/
  labels : List (String × Label)
  /-- Names used as branch operands, latest first. -/
  referenced : List String
  deriving Inhabited, Repr

namespace Draft

def empty : Draft := ⟨.empty, [], []⟩

/-- The label of a name, allocated at the first use. -/
def labelNamed (d : Draft) (name : String) : Label × Draft :=
  match d.labels.lookup name with
  | some l => (l, d)
  | none =>
    let (l, builder) := d.builder.allocate
    (l, { d with builder := builder, labels := (name, l) :: d.labels })

def position? (d : Draft) (name : String) : Option Nat :=
  (d.labels.lookup name).bind d.builder.position?

/-- **Label definition.** Places the label of a name at the current offset, once. -/
def define (d : Draft) (line : Nat) (name : String) : Except AssemblyError Draft :=
  let (l, d) := d.labelNamed name
  if (d.builder.position? l).isSome then .error (.duplicateLabel line name)
  else (d.builder.place l).map fun builder => { d with builder := builder }

def append (d : Draft) (o : Opcode) : Draft := { d with builder := d.builder.append o }

def appendBranch (d : Draft) (op : BranchOp) (name : String) : Draft :=
  let (l, d) := d.labelNamed name
  { d with builder := d.builder.appendBranch op l, referenced := name :: d.referenced }

end Draft

/-- **Memory operand:** an address, or the name of a symbol. -/
def memoryOperand (t : SymbolTable) (line : Nat) (operand : List Char) :
    Except AssemblyError Nat :=
  if operand.isEmpty then .error (.badOperand line "missing memory operand")
  else match Text.unsigned? operand with
    | some address => .ok address
    | none =>
      match t.get? (String.ofList operand) with
      | some s => .ok s.address
      | none => .error (.unknownSymbol line (String.ofList operand))

/-- **Verb operand:** a number sign and an id, or the name of a verb. -/
def verbOperand (verbs : String → Option VerbId) (line : Nat) (operand : List Char) :
    Except AssemblyError VerbId :=
  match operand with
  | [] => .error (.badOperand line "missing verb name")
  | '#' :: id =>
    match Text.int32? id with
    | some n => .ok ⟨n⟩
    | none => .error (.badOperand line s!"invalid verb id '{String.ofList operand}'")
  | _ =>
    match verbs (String.ofList operand) with
    | some v => .ok v
    | none => .error (.unknownVerb line (String.ofList operand))

/-- **Branch operand:** an offset, or the name of a label. -/
def appendBranchTo (d : Draft) (line : Nat) (op : BranchOp) (operand : List Char) :
    Except AssemblyError Draft :=
  match Text.unsigned? operand with
  | some target => .ok (d.append (.branch op target))
  | none =>
    if isName operand then .ok (d.appendBranch op (String.ofList operand))
    else .error (.badOperand line s!"'{(Mnemonic.branch op).text}' expects a label")

/-- **One instruction.** The mnemonic may be in any case; its operand is the rest of the line. -/
def instruction (t : SymbolTable) (verbs : String → Option VerbId) (d : Draft) (line : Nat)
    (cs : List Char) : Except AssemblyError Draft :=
  let (first, rest) := Text.splitWord cs
  let operand := Text.trim rest
  let word := String.ofList (first.map Char.toLower)
  match Mnemonic.ofText? word with
  | none => .error (.unknownMnemonic line word)
  | some m =>
    match Opcode.bare? m with
    | some o =>
      if operand.isEmpty then .ok (d.append o)
      else .error (.badOperand line s!"'{word}' takes no operand")
    | none =>
      match m with
      | .memory op => (memoryOperand t line operand).map fun a => d.append (.memory op a)
      | .branch op => appendBranchTo d line op operand
      | .call keeps => (verbOperand verbs line operand).map fun v => d.append (.call keeps v)
      | _ =>
        match Value.ofText? operand with
        | some v => .ok (d.append (.push v))
        | none => .error (invalidLiteral line operand)

/-- A line of code: an optional label, then an optional instruction. -/
def codeLine (t : SymbolTable) (verbs : String → Option VerbId) (d : Draft) (line : Line) :
    Except AssemblyError Draft :=
  match splitLabel? line.text with
  | none => instruction t verbs d line.number line.text
  | some (name, rest) => do
    let d ← d.define line.number (String.ofList name)
    let body := Text.trim rest
    if body.isEmpty then return d
    else instruction t verbs d line.number body

end CogMachine.Assembly
