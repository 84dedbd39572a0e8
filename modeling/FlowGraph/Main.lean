import FlowGraph.Command.Help
import FlowGraph.Command.Run

/-! The command line. Everything it decides is decided by `Command`; here files
are read and written and clocks are looked at. -/
namespace FlowGraph.Command

/-- The cause of a failed access. -/
def AccessError.ofError : IO.Error → AccessError
  | .noFileOrDirectory .. => .notFound
  | .inappropriateType .. => .isDirectory
  | error => .other (toString error)

/-- Runs an access, keeping its failure. -/
def attempt {α : Type} (action : IO α) : IO (Except AccessError α) := do
  try
    let value ← action
    return .ok value
  catch error => return .error (.ofError error)

def readInput : Option String → IO (Except AccessError ByteArray)
  | some path => attempt (IO.FS.readBinFile path)
  | none => attempt do
      let stdin ← IO.getStdin
      stdin.readBinToEnd

def writeOutput (target : Option IO.FS.Handle) (text : String) : IO (Except AccessError Unit) :=
  attempt do
    match target with
    | some file =>
        file.putStr text
        file.flush
    | none =>
        let stdout ← IO.getStdout
        stdout.putStr text
        stdout.flush

/-- The machine that the program runs on. -/
def machine : Host IO IO.FS.Handle where
  read := readInput
  create path := attempt (IO.FS.Handle.mk path .write)
  write := writeOutput
  tell text := IO.eprint text
  clock := IO.monoNanosNow

end FlowGraph.Command

open FlowGraph.Command in
/-- Builds the control flow graphs of the methods of a listing. -/
def main (arguments : List String) : IO UInt32 := do
  match parseArguments arguments with
  | .error cause =>
      IO.eprintln s!"error: {cause.message}"
      return 1
  | .ok (.help detailed) =>
      IO.print (helpText detailed)
      return 0
  | .ok .version =>
      IO.print versionText
      return 0
  | .ok (.run o) => do
      let code ← machine.run 1 o
      return code.toUInt32
