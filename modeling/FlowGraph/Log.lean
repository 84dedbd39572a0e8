import FlowGraph.Instruction
import FlowGraph.Node

/-! The log. Whatever is worth telling while a command runs is an event; the
functions of this library return their events in the order in which they
happen, and leave it to the caller to show those that are grave enough. -/
namespace FlowGraph

/-- How grave an event is, the gravest first. -/
inductive Level where
  | error
  | warn
  | info
  | debug
  | trace
deriving DecidableEq

namespace Level

def name : Level → String
  | .error => "ERROR"
  | .warn => "WARN"
  | .info => "INFO"
  | .debug => "DEBUG"
  | .trace => "TRACE"

/-- The verbosity from which on a level is shown. Verbosity 0 shows nothing. -/
def verbosity : Level → Nat
  | .error => 1
  | .warn => 2
  | .info => 3
  | .debug => 4
  | .trace => 5

end Level

inductive Event where
  /-- The header of a method was read. -/
  | methodOpened (name : String) (line : Nat)
  /-- A block was added to a graph. -/
  | allocated (node : Node)
  /-- A block was set aside for the instruction with a label. -/
  | targetStarts (label : Label) (node : Node)
  /-- An edge was added to a graph that did not have it. -/
  | connected (source destination : Node)
  | graphBuilt (blocks edges instructions : Nat)
  /-- A traversal finished the nodes in this order. -/
  | traversed (postOrder : List Node)
  | noPredecessors (block : Node)
  | methodStarted (name : String) (instructions : Nat)
  | methodSkipped (name reason : String)
  | batchFinished (built methods failed : Nat)
  | limitedToOneWorker
  | readingFile (path : String)
  | readingInput
  | writingFile (path : String)
  | workersUsed (count : Nat)
deriving DecidableEq

namespace Event

def level : Event → Level
  | .methodOpened .. | .allocated .. | .targetStarts .. | .connected .. | .traversed .. => .trace
  | .graphBuilt .. | .methodStarted .. | .readingFile .. | .readingInput | .writingFile .. => .debug
  | .batchFinished .. | .limitedToOneWorker | .workersUsed .. => .info
  | .noPredecessors .. | .methodSkipped .. => .warn

def message : Event → String
  | .methodOpened name line => s!"Parsing method {name} at line {line}"
  | .allocated node => s!"Allocated {node.display}"
  | .targetStarts label node => s!"Target {label.name} starts {node.display}"
  | .connected source destination => s!"Connected {source.display} -> {destination.display}"
  | .graphBuilt blocks edges instructions =>
      s!"Built CFG with {blocks} blocks and {edges} edges from {instructions} instructions"
  | .traversed postOrder => s!"Post-order [{Node.displayAll postOrder}]"
  | .noPredecessors block => s!"{block.display} has no predecessors"
  | .methodStarted name instructions => s!"Building CFG of {name} ({instructions} instructions)"
  | .methodSkipped name reason => s!"Skipping method {name}: {reason}"
  | .batchFinished built methods failed => s!"Built {built} of {methods} graphs ({failed} failed)"
  | .limitedToOneWorker => "Limiting to one rayon worker thread"
  | .readingFile path => s!"Reading from `{path}`"
  | .readingInput => "Reading from stdin"
  | .writingFile path => s!"Writing to `{path}`"
  | .workersUsed count => s!"Used {count} rayon worker threads"

end Event
end FlowGraph
