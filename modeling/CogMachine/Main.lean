import CogMachine.Host.CommandLine

/-!
# The program

`cogvm` reads its files, shows what the command line says and ends with its exit code.
-/

namespace CogMachine

def cycleBound : Nat := 0x4000000000000000

def readReason : IO.Error → String
  | .noFileOrDirectory _ _ _ => "No such file or directory (os error 2)"
  | e => toString e

/-- The bytes of a file, or the reason why there are none. -/
def readBytes (name : String) : IO (Except String ByteArray) := do
  try
    return .ok (← IO.FS.readBinFile name)
  catch e =>
    return .error (readReason e)

/-- The files that the arguments name, already read. -/
def readAll (o : Host.Options) : IO Host.CommandLine.Read := do
  let source ← readBytes o.file
  match o.config with
  | none => return fun _ => source
  | some config =>
    let limits ← readBytes config
    return fun name => if name = config then limits else source

end CogMachine

open CogMachine in
def main (arguments : List String) : IO UInt32 := do
  let read ← match Host.Options.ofArguments arguments with
    | .ok o => readAll o
    | .error _ => pure fun _ => .error ""
  match Host.CommandLine.run cycleBound read arguments with
  | none => return 1
  | some e =>
    IO.print e.stdout
    IO.eprint e.stderr
    return UInt32.ofNat e.code
