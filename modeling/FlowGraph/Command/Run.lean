import FlowGraph.Batch
import FlowGraph.Command.Options
import FlowGraph.Graph.Dot
import FlowGraph.Listing.Reading

/-! A run of the command on a machine that it may ask for files and for the time.
First the input is read and the graphs are built; then the output is created and
written; then the run ends with a summary. A run that cannot read its input or create
its output ends there, with nothing written. One that cannot write its output to the
end stops where it is. -/
namespace FlowGraph.Command

/-- Why a file cannot be read, created or written. -/
inductive AccessError where
  | notFound
  | isDirectory
  | notText
  | other (text : String)
deriving DecidableEq

def AccessError.message : AccessError → String
  | .notFound => "No such file or directory (os error 2)"
  | .isDirectory => "Is a directory (os error 21)"
  | .notText => "stream did not contain valid UTF-8"
  | .other text => text

/-- Why a run ends early. -/
inductive Refusal where
  | unreadable (input : Option String) (cause : AccessError)
  | unparsable (input : Option String) (cause : Listing.ReadError)
  | uncreatable (output : String) (cause : AccessError)
  | unwritable (output : Option String) (cause : AccessError)
deriving DecidableEq

def Refusal.message : Refusal → String
  | .unreadable (some path) cause => s!"Failed to read input `{path}`: {cause.message}"
  | .unreadable none cause => s!"Failed to read from stdin: {cause.message}"
  | .unparsable (some path) cause => s!"Failed to parse `{path}`: {cause.message}"
  | .unparsable none cause => s!"Failed to parse stdin: {cause.message}"
  | .uncreatable path cause => s!"Failed to create output `{path}`: {cause.message}"
  | .unwritable (some path) cause => s!"Failed to write output `{path}`: {cause.message}"
  | .unwritable none cause => s!"Failed to write to stdout: {cause.message}"

/-- The lines of the events that are grave enough. -/
def logText (verbosity : Nat) (events : List Event) : String :=
  String.join ((events.filter fun e => e.level.verbosity ≤ verbosity).map fun e =>
    s!"{e.level.name} - {e.message}\n")

/-- How long the parts of a run took, in nanoseconds. -/
structure Timings where
  parse : Nat := 0
  build : Nat := 0
  output : Nat := 0
  /-- The time spent on graphs, summed over methods. -/
  construction : Nat := 0

/-- Text moved to the right end of a field. -/
def alignRight (width : Nat) (text : String) : String :=
  String.ofList (List.replicate (width - text.length) ' ') ++ text

/-- Text moved to the left end of a field. -/
def alignLeft (width : Nat) (text : String) : String :=
  text ++ String.ofList (List.replicate (width - text.length) ' ')

/-- A time in milliseconds with three places, half a place going up. -/
def milliseconds (nanoseconds : Nat) : String :=
  let micros := (nanoseconds + 500) / 1000
  let places := toString (micros % 1000)
  alignRight 8
    (toString (micros / 1000) ++ "." ++ String.ofList (List.replicate (3 - places.length) '0') ++ places)

def timeLine (name : String) (nanoseconds : Nat) : String :=
  s!"  {alignLeft 10 name}  {milliseconds nanoseconds} ms\n"

def countLine (name : String) (count : Nat) : String :=
  s!"  {alignLeft 14 name}{alignRight 8 (toString count)}\n"

/-- The summary of times and numbers. -/
def summary (t : Timings) (total : Statistics) : String :=
  String.join
    ["Execution Time Statistics:\n", timeLine "parse:" t.parse, timeLine "build:" t.build,
      timeLine "output:" t.output, timeLine "total:" (t.parse + t.build + t.output),
      "\nStructure Statistics:\n", countLine "Methods:" total.methods,
      countLine "Failed:" total.failed, countLine "Basic Blocks:" total.blocks,
      countLine "Edges:" total.edges,
      s!"  Construction: {milliseconds t.construction} ms (summed over methods)\n"]

/-- The graph of a method in a format. -/
def renderGraph (format : Format) (name : String) (g : Graph) : String :=
  match format with
  | .dot => Dot.renderMethod name g
  | .text => s!"method {name}:\n" ++ g.display

/-- What a report adds to the output. A method that failed adds nothing. -/
def renderReport (format : Format) (r : Report) : String :=
  match r.result with
  | .ok g => renderGraph format r.name g
  | .error _ => ""

def renderReports (format : Format) (rs : List Report) : String :=
  String.join (rs.map (renderReport format))

/-- A line for each method that failed. -/
def failureText (rs : List Report) : String :=
  String.join (rs.map fun r =>
    match r.failure? with
    | some failure => s!"{r.name}: {failure.message}\n"
    | none => "")

/-- Bytes as text. -/
def decodeText (bytes : ByteArray) : Except AccessError String :=
  match String.fromUTF8? bytes with
  | some text => .ok text
  | none => .error .notText

/-- A run that has ended early: what it has told and why it ended. -/
structure Halted where
  log : List Event
  cause : Refusal

/-- A run whose graphs are built and whose output is ready. -/
structure Prepared where
  log : List Event
  reports : List Report

/-- What is told before the input is read. -/
def openingEvents (o : Options) : List Event :=
  (if o.oneWorker then [.limitedToOneWorker] else []) ++
    [match o.input with
      | some path => .readingFile path
      | none => .readingInput]

/-- Reads the input and builds the graphs. -/
def prepare (o : Options) (input : Except AccessError ByteArray) : Except Halted Prepared :=
  match input.bind decodeText with
  | .error cause => .error ⟨openingEvents o, .unreadable o.input cause⟩
  | .ok text =>
      let log := openingEvents o ++ Listing.readEvents text
      match Listing.read text with
      | .error cause => .error ⟨log, .unparsable o.input cause⟩
      | .ok program =>
          .ok ⟨log ++ Batch.programEvents o.verify program, Batch.buildProgram o.verify program⟩

namespace Prepared

def output (o : Options) (p : Prepared) : String := renderReports o.format p.reports

/-- What is told up to the creation of the output. -/
def logBeforeOutput (o : Options) (p : Prepared) : List Event :=
  p.log ++ (o.output.map .writingFile).toList

/-- What the output file cannot be created for. -/
def refuse (o : Options) (p : Prepared) (path : String) (cause : AccessError) : Halted :=
  ⟨p.logBeforeOutput o, .uncreatable path cause⟩

/-- What the writing of the output breaks off for. -/
def breakOff (o : Options) (p : Prepared) (cause : AccessError) : Halted :=
  ⟨p.logBeforeOutput o, .unwritable o.output cause⟩

/-- The messages of a run that has written its output. -/
def messages (o : Options) (p : Prepared) (workers : Nat) (t : Timings) : String :=
  logText o.verbosity (p.logBeforeOutput o) ++ failureText p.reports ++
    (if o.time then summary t (Statistics.ofReports p.reports) else "") ++
    logText o.verbosity [.workersUsed workers]

/-- The exit code of a run that has written its output: 0 if no method failed. -/
def exitCode (p : Prepared) : Nat := if (Statistics.ofReports p.reports).failed = 0 then 0 else 1

end Prepared

/-- The messages of a run that has ended early. -/
def Halted.messages (o : Options) (h : Halted) : String :=
  logText o.verbosity h.log ++ s!"Error: {h.cause.message}\n"

/-- What a run asks of the machine that it runs on, which knows the files that were
created. -/
structure Host (m : Type → Type) (File : Type) where
  /-- Reads a file, or standard input. -/
  read : Option String → m (Except AccessError ByteArray)
  /-- Creates a file, or empties it. -/
  create : String → m (Except AccessError File)
  /-- Writes the whole text of a created file, or of standard output. -/
  write : Option File → String → m (Except AccessError Unit)
  tell : String → m Unit
  /-- The time in nanoseconds. -/
  clock : m Nat

namespace Host

variable {m : Type → Type} [Monad m] {File : Type}

/-- Ends a run early. -/
def halt (host : Host m File) (o : Options) (h : Halted) : m Nat := do
  host.tell (h.messages o)
  return 1

/-- The file that the options want the output in. None is standard output. -/
def openOutput (host : Host m File) (o : Options) (p : Prepared) :
    m (Except Halted (Option File)) :=
  match o.output with
  | none => return .ok none
  | some path => do
      let created ← host.create path
      return (created.map some).mapError (p.refuse o path)

/-- A run on a machine. It ends with an exit code. -/
def run (host : Host m File) (workers : Nat) (o : Options) : m Nat := do
  let started ← host.clock
  let input ← host.read o.input
  let read ← host.clock
  match prepare o input with
  | .error halted => host.halt o halted
  | .ok p => do
      let built ← host.clock
      match ← host.openOutput o p with
      | .error halted => host.halt o halted
      | .ok target => do
          match ← host.write target (p.output o) with
          | .error cause => host.halt o (p.breakOff o cause)
          | .ok () => do
              let written ← host.clock
              host.tell (p.messages o workers
                ⟨read - started, built - read, written - built, built - read⟩)
              return p.exitCode

end Host

end FlowGraph.Command
