import CogMachine.Host.LimitsText
import CogMachine.Host.Session

/-!
# The command line

What the program `cogvm` shows for its arguments and for the files it reads: an exit code and two
texts. Reading a file is left to `read`, which gives the bytes or the reason why there are none.
-/

namespace CogMachine.Host.CommandLine

/-- What the program leaves behind. -/
structure Exit where
  code : Nat
  stdout : String
  stderr : String
  deriving DecidableEq, Inhabited, Repr

/-- Bytes of a file, or the reason why they cannot be read. -/
abbrev Read : Type := String → Except String ByteArray

def invalidUtf8 : String := "stream did not contain valid UTF-8"

def readText (read : Read) (name : String) : Except Failure String :=
  match read name with
  | .error reason => .error (.unreadable name reason)
  | .ok bytes =>
    match String.fromUTF8? bytes with
    | some text => .ok text
    | none => .error (.unreadable name invalidUtf8)

/-- The limits in a file, or the standard ones without a file. -/
def limitsOf (read : Read) (config : Option String) : Except Failure Limits :=
  match config with
  | none => .ok .standard
  | some name => do
    let text ← readText read name
    match Limits.ofJson? text with
    | some l => .ok l
    | none => .error (.badConfig name)

/-- **Last part** of a path, which names the script; a path that ends in a step upward has none and is
taken whole. -/
def scriptName (name : String) : String :=
  let parts := (Text.splitFields (· == '/') name.toList).filter fun part => part ≠ [] && part ≠ ['.']
  match parts.getLast? with
  | none => name
  | some part => if part = ['.', '.'] then name else String.ofList part

/-- What a message hands to the script, as the options say. -/
def contextOf (o : Options) : Context :=
  Context.withParams ⟨o.sender.getD .void, o.source.getD .void, .replicate 4 .void⟩ o.params

/-- Everything the run of a file shows. There are four parameter registers; a fifth parameter is refused
before any file is read, and limits are read before the script. -/
def transcript (fuel : Nat) (read : Read) (o : Options) : Option Transcript :=
  if 4 < o.params.length then
    some (Session.failed (.argument s!"at most 4 parameters, got {o.params.length}"))
  else match limitsOf read o.config with
    | .error f => some (Session.failed f)
    | .ok limits =>
      match readText read o.file with
      | .error f => some (Session.failed f)
      | .ok source =>
        let s : Session := ⟨o.mode, o.entry, contextOf o, limits, o.printBytecode⟩
        s.run fuel (scriptName o.file) source

def unlines (lines : List String) : String := String.join (lines.map (· ++ "\n"))

/-- **Exit** after a transcript. The value is shown unless it is void, and resumptions are counted on the
error stream. -/
def exitOf (t : Transcript) : Exit :=
  let shown := t.listing ++ unlines t.console.lines
  match t.result with
  | .error f => ⟨1, shown, s!"Error: {f.message}\n"⟩
  | .ok report =>
    let value := if report.value = .void then "" else report.value.text ++ "\n"
    let resumed := if report.suspensions = 0 then ""
      else s!"(resumed {report.suspensions} time(s))\n"
    ⟨0, shown ++ value, resumed⟩

/-- The version that `--version` shows. -/
def versionLine : String := "cogvm 0.1.0\n"

/-- What `--help` shows. -/
def helpText : String := unlines
  ["Assemble and run a cog script",
    "",
    "Usage: cogvm [OPTIONS] <FILE>",
    "",
    "Options:",
    "  -e, --entry <ENTRY>    Message handler or program offset to start at",
    "  -m, --mode <MODE>      Engine: transient or resumable",
    "      --sender <SENDER>  Sender register",
    "      --source <SOURCE>  Source register",
    "  -p, --param <PARAM>    Parameter register; up to four",
    "      --print-bytecode   Show the script's listing first",
    "      --config <FILE>    Json file with limits",
    "  -v, --verbose          Log more",
    "  -h, --help             Show this text",
    "  -V, --version          Show the version"]

/-- The line on the error stream for arguments that are refused. -/
def refusalLine : Refusal → String
  | .unknownArgument => "error: unexpected argument\n"
  | .missingRequiredArgument => "error: the script file is missing\n"
  | .invalidValue => "error: a value is missing or is not one of those allowed\n"
  | .valueValidation => "error: a value cannot be read\n"
  | .argumentConflict => "error: an option is given twice\n"
  | .tooManyValues => "error: a flag takes no value\n"
  | .displayHelp | .displayVersion => ""

/-- **Exit** for refused arguments: help and version are shown with success. -/
def refusalExit (r : Refusal) : Exit :=
  match r with
  | .displayHelp => ⟨0, helpText, ""⟩
  | .displayVersion => ⟨0, versionLine, ""⟩
  | _ => ⟨2, "", refusalLine r⟩

/-- **The program.** There is no exit if the fuel does not suffice. -/
def run (fuel : Nat) (read : Read) (arguments : List String) : Option Exit :=
  match Options.ofArguments arguments with
  | .error r => some (refusalExit r)
  | .ok o => (transcript fuel read o).map exitOf

end CogMachine.Host.CommandLine
