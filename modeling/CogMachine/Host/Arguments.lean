import CogMachine.Host.Entry
import CogMachine.Value.Reading

/-!
# Arguments

The arguments of the program `cogvm`: a file, and options with long names, some of which have a
letter. They are taken left to right and the first problem met decides. An option's value that is an
argument of its own is held back until the next option, positional argument or the end, and only then
checked; a value in the same argument is checked at once. An argument that starts with a minus sign
and says more than that is an option, never a value, until `--` makes everything positional.
-/

namespace CogMachine.Host

/-- Which engine runs the script. -/
inductive Mode where
  | transient | resumable
  deriving DecidableEq, Inhabited, Repr

def Mode.text : Mode → String
  | transient => "transient"
  | resumable => "resumable"

/-- What the arguments ask for. -/
structure Options where
  file : String
  entry : Entry
  mode : Mode
  sender : Option Value
  source : Option Value
  params : List Value
  printBytecode : Bool
  config : Option String
  /-- How often logging was asked to say more. -/
  verbosity : Nat
  deriving DecidableEq, Inhabited, Repr

def Options.logFilter (o : Options) : String :=
  match o.verbosity with
  | 0 => "warn"
  | 1 => "debug"
  | _ => "trace"

/-- Why there are no options; asking for help or for the version is a reason too. -/
inductive Refusal where
  | unknownArgument
  | missingRequiredArgument
  | invalidValue
  | valueValidation
  | argumentConflict
  | tooManyValues
  | displayHelp
  | displayVersion
  deriving DecidableEq, Inhabited, Repr

namespace Arguments

/-- What can be given. -/
inductive Parameter where
  | file | entry | mode | sender | source | param | printBytecode | config | verbose | help | version
  deriving DecidableEq, Inhabited, Repr

def longNames : List (String × Parameter) :=
  [("entry", .entry), ("mode", .mode), ("sender", .sender), ("source", .source), ("param", .param),
    ("print-bytecode", .printBytecode), ("config", .config), ("verbose", .verbose),
    ("help", .help), ("version", .version)]

def letters : List (Char × Parameter) :=
  [('e', .entry), ('m', .mode), ('p', .param), ('v', .verbose), ('h', .help), ('V', .version)]

def Parameter.takesValue : Parameter → Bool
  | file | entry | mode | sender | source | param | config => true
  | printBytecode | verbose | help | version => false

/-- What was given so far. -/
structure Given where
  file : Option String
  entry : Option Entry
  mode : Option Mode
  sender : Option Value
  source : Option Value
  params : List Value
  printBytecode : Bool
  config : Option String
  verbosity : Nat
  deriving Inhabited, Repr

def Given.nothing : Given := ⟨none, none, none, none, none, [], false, none, 0⟩

def setOnce {α : Type} (old : Option α) (new : Except Refusal α) : Except Refusal (Option α) :=
  if old.isSome then .error .argumentConflict else new.map some

/-- A path, which must not be empty. -/
def path (text : String) : Except Refusal String :=
  if text = "" then .error .invalidValue else .ok text

def literal (text : String) : Except Refusal Value :=
  match Value.ofText? text.toList with
  | some v => .ok v
  | none => .error .valueValidation

def modeOf (text : String) : Except Refusal Mode :=
  if text = "transient" then .ok .transient
  else if text = "resumable" then .ok .resumable
  else .error .invalidValue

def entryOf (text : String) : Except Refusal Entry :=
  match Entry.ofText? text with
  | some e => .ok e
  | none => .error .valueValidation

/-- **Taking** a parameter that comes with a value. -/
def Given.takeValue (g : Given) (p : Parameter) (text : String) : Except Refusal Given :=
  match p with
  | .file => (setOnce g.file (path text)).map fun file => { g with file }
  | .entry => (setOnce g.entry (entryOf text)).map fun entry => { g with entry }
  | .mode => (setOnce g.mode (modeOf text)).map fun mode => { g with mode }
  | .sender => (setOnce g.sender (literal text)).map fun sender => { g with sender }
  | .source => (setOnce g.source (literal text)).map fun source => { g with source }
  | .param => (literal text).map fun v => { g with params := g.params ++ [v] }
  | .config => (setOnce g.config (path text)).map fun config => { g with config }
  | .printBytecode | .verbose | .help | .version => .error .tooManyValues

/-- **Taking** a flag. -/
def Given.takeFlag (g : Given) (p : Parameter) : Except Refusal Given :=
  match p with
  | .printBytecode =>
    if g.printBytecode then .error .argumentConflict else .ok { g with printBytecode := true }
  | .verbose => .ok { g with verbosity := min (g.verbosity + 1) 255 }
  | .help => .error .displayHelp
  | .version => .error .displayVersion
  | .file | .entry | .mode | .sender | .source | .param | .config => .error .invalidValue

/-- The state between two arguments. -/
structure Reading where
  given : Given
  /-- A parameter whose value is still to come or still to be checked. -/
  pending : Option (Parameter × Option String)
  /-- Whether an option waits for its value in the next argument. -/
  awaiting : Bool
  /-- Whether the file was given. -/
  hasFile : Bool
  /-- Whether every further argument is positional. -/
  positional : Bool
  deriving Inhabited, Repr

/-- **Settling.** Takes what is pending; a value that never came is invalid. -/
def Reading.settle (r : Reading) : Except Refusal Reading :=
  match r.pending with
  | none => .ok r
  | some (_, none) => .error .invalidValue
  | some (p, some text) => (r.given.takeValue p text).map fun given =>
    { r with given, pending := none }

def Reading.attached (r : Reading) (p : Parameter) (text : String) : Except Refusal Reading := do
  let r ← r.settle
  let given ← r.given.takeValue p text
  return { r with given, awaiting := false }

def Reading.await (r : Reading) (p : Parameter) : Except Refusal Reading := do
  let r ← r.settle
  return { r with pending := some (p, none), awaiting := true }

def Reading.flag (r : Reading) (p : Parameter) : Except Refusal Reading := do
  let r ← r.settle
  let given ← r.given.takeFlag p
  return { r with given, awaiting := false }

/-- The text after the two minus signs of a long option. -/
def Reading.long (r : Reading) (body : List Char) : Except Refusal Reading :=
  let name := String.ofList (body.takeWhile (· ≠ '='))
  let value? := match body.dropWhile (· ≠ '=') with
    | [] => none
    | _ :: value => some (String.ofList value)
  match longNames.lookup name, value? with
  | none, _ => .error .unknownArgument
  | some p, none => if p.takesValue then r.await p else r.flag p
  | some p, some value => if p.takesValue then r.attached p value else .error .tooManyValues

/-- The letters after a single minus sign: flags, and at last perhaps an option with its value. -/
def Reading.short (r : Reading) : List Char → Except Refusal Reading
  | [] => .ok r
  | c :: cs =>
    match letters.lookup c with
    | none => .error .unknownArgument
    | some p =>
      if p.takesValue then
        match cs with
        | [] => r.await p
        | '=' :: value => r.attached p (String.ofList value)
        | value => r.attached p (String.ofList value)
      else do
        let r ← r.flag p
        r.short cs

/-- A positional argument: the file, and nothing else. -/
def Reading.place (r : Reading) (text : String) : Except Refusal Reading :=
  if r.hasFile then .error .unknownArgument
  else do
    let r ← r.settle
    return { r with pending := some (.file, some text), awaiting := false, hasFile := true }

/-- **One argument.** -/
def Reading.take (r : Reading) (text : String) : Except Refusal Reading :=
  if r.positional then r.place text
  else match text.toList with
    | ['-', '-'] => .ok { r with positional := true }
    | '-' :: '-' :: body => r.long body
    | '-' :: c :: cs => r.short (c :: cs)
    | _ =>
      if r.awaiting then
        .ok { r with pending := r.pending.map fun (p, _) => (p, some text), awaiting := false }
      else r.place text

/-- What was given, completed by what holds where nothing is said. -/
def Given.options (g : Given) : Except Refusal Options :=
  match g.file with
  | none => .error .missingRequiredArgument
  | some file =>
    .ok ⟨file, g.entry.getD (.offset 0), g.mode.getD .resumable, g.sender, g.source, g.params,
      g.printBytecode, g.config, g.verbosity⟩

end Arguments

open Arguments in
/-- **Reading the arguments,** the name of the program left out. -/
def Options.ofArguments (arguments : List String) : Except Refusal Options := do
  let start : Reading := ⟨.nothing, none, false, false, false⟩
  let r ← arguments.foldlM Reading.take start
  let r ← r.settle
  r.given.options

end CogMachine.Host
