import FlowGraph.Command.Run

/-! A machine made of data. It says where paths lead, which of them may be read or
created and what can be written, and a run finds that as it is. What a run changes is
the files and what it has printed. -/
namespace FlowGraph.Command

/-- What a run finds: standard input, a clock, the file system and its files. A file
has one name, whichever paths lead to it, and has it before it is created. -/
structure World where
  input : Except AccessError ByteArray
  /-- The file that is opened for reading by a path. -/
  reads : String → Except AccessError String
  /-- The file that is created, or emptied, by a path. -/
  creates : String → Except AccessError String
  /-- What arrives of bytes whose writing breaks off, to a file or to standard output,
  and why it breaks off. -/
  breaks : Option String → ByteArray → Option (ByteArray × AccessError)
  files : String → Option ByteArray
  /-- What the clock shows each time it is looked at. -/
  clock : Nat → Nat

namespace World

def contentOf (w : World) (path : String) : Except AccessError ByteArray :=
  match w.reads path with
  | .error cause => .error cause
  | .ok name =>
      match w.files name with
      | some content => .ok content
      | none => .error .notFound

def readInput (w : World) : Option String → Except AccessError ByteArray
  | some path => w.contentOf path
  | none => w.input

/-- The files after one of them is written. -/
def withFile (w : World) (name : String) (content : ByteArray) : World :=
  { w with files := fun other => if other = name then some content else w.files other }

end World

/-- What a run has done. -/
structure Trace where
  world : World
  output : ByteArray := .empty
  messages : String := ""
  /-- How often the clock was looked at. -/
  looks : Nat := 0

/-- The bytes arrive in a file, or on standard output. -/
def Trace.write (s : Trace) (bytes : ByteArray) : Option String → Trace
  | some name => { s with world := s.world.withFile name bytes }
  | none => { s with output := s.output ++ bytes }

/-- The machine that a world is the state of. -/
def World.host : Host (StateM Trace) String where
  read source := fun s => (s.world.readInput source, s)
  create path := fun s =>
    match s.world.creates path with
    | .error cause => (.error cause, s)
    | .ok name => (.ok name, s.write .empty (some name))
  write target text := fun s =>
    match s.world.breaks target text.toUTF8 with
    | some (part, cause) => (.error cause, s.write part target)
    | none => (.ok (), s.write text.toUTF8 target)
  tell text := fun s => ((), { s with messages := s.messages ++ text })
  clock := fun s => (s.world.clock s.looks, { s with looks := s.looks + 1 })

/-- How a run ends. -/
structure Outcome extends Trace where
  code : Nat

/-- A run in a world. -/
def run (o : Options) (w : World) (workers : Nat) : Outcome :=
  let (code, done) := (World.host.run workers o).run { world := w }
  { done with code }

end FlowGraph.Command
