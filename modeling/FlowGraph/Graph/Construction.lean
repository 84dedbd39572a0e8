import FlowGraph.Graph.Basic
import FlowGraph.Log
import FlowGraph.Program

/-! Building the graph of an instruction list.

The work is first written down as a list of edits: a block is set aside for
every branch target, then the instructions are placed one by one, a new block
being opened where a target or a terminator demands it, and every way that
control can take becomes an edge. Replaying the edits on the initial graph
gives the result, and the edits tell what is logged. A label that two
instructions carry, or a target that none carries, is found beforehand. -/
namespace FlowGraph.Construction

/-- Why an instruction list has no graph. -/
inductive Fault where
  | duplicateLabel (label : Label)
  | undefinedTarget (label : Label)
  /-- An edit names a node that the graph does not have. -/
  | missingKey (cause : MissingKey)
deriving DecidableEq

def Fault.message : Fault → String
  | .duplicateLabel label => s!"label `{label.name}` is defined more than once"
  | .undefinedTarget label => s!"branch to undefined label `{label.name}`"
  | .missingKey cause => cause.message

/-- The labels that instructions carry, in order. -/
def labels (is : List Instruction) : List Label := is.filterMap (·.label)

/-- The labels that branches refer to, in order. -/
def references (is : List Instruction) : List Label := is.filterMap (·.target?)

/-- The first label of a list that occurs earlier in it or among `seen`. -/
def firstRepeat? (seen : List Label) : List Label → Option Label
  | [] => none
  | l :: rest => if seen.contains l then some l else firstRepeat? (l :: seen) rest

/-- The first reference to a label that no instruction carries. -/
def firstUndefined? (is : List Instruction) : Option Label :=
  let defined := labels is
  (references is).find? fun l => !defined.contains l

/-- What is wrong with the labels of an instruction list. -/
def fault? (is : List Instruction) : Option Fault :=
  match firstRepeat? [] (labels is) with
  | some l => some (.duplicateLabel l)
  | none => (firstUndefined? is).map .undefinedTarget

/-- The distinct branch targets in the order of their first reference, as far
as references lead to labels. -/
def targets (is : List Instruction) : List Label :=
  let defined := labels is
  ((references is).takeWhile defined.contains).eraseDups

/-- The block set aside for a branch target. -/
def targetNode? (ts : List Label) (l : Label) : Option Node :=
  (ts.idxOf? l).map fun j => Node.ofIndex (2 + j)

/-- One step in the making of a graph. -/
inductive Edit where
  /-- Adds an empty block, which gets this node. -/
  | allocate (node : Node)
  /-- Sets a block aside for the instruction with a label. -/
  | aim (label : Label) (node : Node)
  /-- Adds an instruction at the end of a block. -/
  | place (node : Node) (i : Instruction)
  /-- Adds an edge, at both of its ends. -/
  | connect (source destination : Node)
deriving DecidableEq

namespace Edit

/-- Carries out an edit on a graph that has the nodes it names. -/
def perform? (g : Graph) : Edit → Option Graph
  | .allocate node =>
      if g.vertices.nextKey = node then some ⟨g.vertices.push { role := .block }⟩ else none
  | .aim _ _ => some g
  | .place node i => (g.vertices.modify? node (·.addInstruction i)).map Graph.mk
  | .connect source destination =>
      match g.vertices.modify? source (·.addSucc destination) with
      | some vertices => (vertices.modify? destination (·.addPred source)).map Graph.mk
      | none => none

def event? : Edit → Option Event
  | .allocate node => some (.allocated node)
  | .aim label node => some (.targetStarts label node)
  | .place _ _ => none
  | .connect source destination => some (.connected source destination)

end Edit

/-- Carries out edits in order. -/
def replay? (g : Graph) (es : List Edit) : Option Graph := es.foldlM Edit.perform? g

/-- How the next instruction is attached to what stands before it. -/
structure Boundary where
  /-- The next instruction starts a block. -/
  cuts : Bool
  /-- Control may go on to the next instruction. -/
  falls : Bool
deriving DecidableEq

namespace Boundary

/-- Before the first instruction: control comes in and the first block starts. -/
def start : Boundary := ⟨true, true⟩

def after : Op → Boundary
  | .plain _ => ⟨false, true⟩
  | .goto _ => ⟨true, false⟩
  | .branch _ _ => ⟨true, true⟩
  | .ret _ => ⟨true, false⟩

end Boundary

/-- The block that an instruction goes into. -/
inductive Opening where
  | stay
  /-- It starts the block that was set aside for its label. -/
  | target (node : Node)
  /-- It starts a block of its own. -/
  | fresh
deriving DecidableEq

/-- A branch target always starts its block; any other instruction starts one
only after a cut. -/
def opening (ts : List Label) (b : Boundary) (i : Instruction) : Opening :=
  match i.label.bind (targetNode? ts) with
  | some node => .target node
  | none => if b.cuts then .fresh else .stay

/-- Where construction stands between two instructions. -/
structure Cursor where
  /-- The index of the next block that is not set aside for a target. -/
  fresh : Nat
  /-- The node that holds the instruction before. -/
  current : Node
  boundary : Boundary
deriving DecidableEq

namespace Cursor

/-- Before the first instruction, with `count` blocks set aside. -/
def start (count : Nat) : Cursor := ⟨2 + count, .enter, .start⟩

/-- The node of the next instruction. -/
def nodeAt (c : Cursor) : Opening → Node
  | .stay => c.current
  | .target node => node
  | .fresh => Node.ofIndex c.fresh

def freshAfter (c : Cursor) : Opening → Nat
  | .fresh => c.fresh + 1
  | _ => c.fresh

def advance (ts : List Label) (c : Cursor) (i : Instruction) : Cursor :=
  let o := opening ts c.boundary i
  ⟨c.freshAfter o, c.nodeAt o, .after i.op⟩

/-- Control falls through into a block that starts here. -/
def fallThrough (c : Cursor) (node : Node) : List Edit :=
  if c.boundary.falls then [.connect c.current node] else []

def openingEdits (c : Cursor) : Opening → List Edit
  | .stay => []
  | .target node => c.fallThrough node
  | .fresh => .allocate (Node.ofIndex c.fresh) :: c.fallThrough (Node.ofIndex c.fresh)

end Cursor

/-- The node that control may jump to from an operation. -/
def jump? (ts : List Label) : Op → Option Node
  | .goto target | .branch _ target => targetNode? ts target
  | .ret _ => some .exit
  | .plain _ => none

/-- What one instruction adds to the graph. -/
def instructionEdits (ts : List Label) (c : Cursor) (i : Instruction) : List Edit :=
  let o := opening ts c.boundary i
  c.openingEdits o ++ .place (c.nodeAt o) i :: (jump? ts i.op).toList.map (.connect (c.nodeAt o))

/-- What the instructions add from a given point on. After the last one control
leaves the method. -/
def linkEdits (ts : List Label) (c : Cursor) : List Instruction → List Edit
  | [] => [.connect c.current .exit]
  | i :: rest => instructionEdits ts c i ++ linkEdits ts (c.advance ts i) rest

/-- Sets aside a block for each branch target. -/
def targetEdits (ts : List Label) : List Edit :=
  ts.zipIdx.flatMap fun (l, j) => [.allocate (Node.ofIndex (2 + j)), .aim l (Node.ofIndex (2 + j))]

/-- All edits that make the graph of an instruction list. -/
def edits (is : List Instruction) : List Edit :=
  let ts := targets is
  targetEdits ts ++ linkEdits ts (.start ts.length) is

/-- Builds the graph of an instruction list. -/
def build (is : List Instruction) : Except Fault Graph :=
  match fault? is with
  | some fault => .error fault
  | none =>
      match replay? .initial (edits is) with
      | some g => .ok g
      | none => .error (.missingKey .missingKey)

/-- What edits tell: each thing once, when it first happens. -/
def told (es : List Edit) : List Event := (es.filterMap Edit.event?).eraseDups

/-- What is told while the graph of an instruction list is built. Targets are
set aside until an undefined one is met. -/
def events (is : List Instruction) : List Event :=
  match fault? is with
  | some (.duplicateLabel _) => []
  | some _ => told (targetEdits (targets is))
  | none =>
      told (edits is) ++
        match build is with
        | .ok g => [.graphBuilt g.blocks.length g.edges.length is.length]
        | .error _ => []

end FlowGraph.Construction

namespace FlowGraph.Body

/-- The graph of a method. -/
def graph (b : Body) : Except Construction.Fault Graph := Construction.build b.instructions

end FlowGraph.Body
