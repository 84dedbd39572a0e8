import FlowGraph.Instruction
import FlowGraph.Node
import FlowGraph.Table

/-! Control flow graphs. A graph is a table of vertices that name each other by
node. The type promises nothing about roles or edges: a graph may be read from
outside, and then an edge may be recorded at one end only or lead nowhere. -/
namespace FlowGraph

/-- What a vertex is for. -/
inductive Role where
  | enter
  | exit
  | block
deriving DecidableEq

def Role.display : Role → String
  | .enter => "enter"
  | .exit => "exit"
  | .block => "block"

@[ext]
structure Vertex where
  role : Role
  instructions : List Instruction := []
  preds : NodeSet := ∅
  succs : NodeSet := ∅
deriving DecidableEq

namespace Vertex

def isBlock (v : Vertex) : Bool := v.role == .block

/-- The display of a vertex on its own. -/
def display (v : Vertex) : String :=
  match v.role with
  | .enter => "enter"
  | .exit => "exit"
  | .block => "\n".intercalate (v.instructions.map (·.display))

/-- Whether a vertex holds the instruction with a given label. -/
def holds (v : Vertex) (label : Label) : Bool := v.instructions.any (·.label == some label)

def addInstruction (v : Vertex) (i : Instruction) : Vertex :=
  { v with instructions := v.instructions ++ [i] }

def addPred (v : Vertex) (n : Node) : Vertex := { v with preds := v.preds.insert n }

def addSucc (v : Vertex) (n : Node) : Vertex := { v with succs := v.succs.insert n }

end Vertex

structure Graph where
  vertices : Table 32 Vertex
deriving DecidableEq

namespace Graph

/-- The graph with only the two vertices that every built graph has. -/
def initial : Graph := ⟨.ofList [{ role := .enter }, { role := .exit }]⟩

def size (g : Graph) : Nat := g.vertices.size

def isEmpty (g : Graph) : Bool := g.vertices.isEmpty

def contains (g : Graph) (n : Node) : Bool := g.vertices.contains n

def get? (g : Graph) (n : Node) : Option Vertex := g.vertices.get? n

/-- The nodes of the graph in ascending order. -/
def nodes (g : Graph) : List Node := g.vertices.keys

/-- The vertices in ascending order of their nodes. -/
def toList (g : Graph) : List (Node × Vertex) := g.vertices.toList

/-- The blocks with their nodes, in ascending order. -/
def blockList (g : Graph) : List (Node × Vertex) := g.toList.filter fun (_, v) => v.isBlock

def blocks (g : Graph) : List Node := g.blockList.map (·.1)

/-- The edges as recorded at their sources, by source and then by destination. -/
def edges (g : Graph) : List (Node × Node) :=
  g.toList.flatMap fun (n, v) => v.succs.toList.map fun m => (n, m)

/-- The first node, of any role, that holds the instruction with a given label. -/
def blockOf? (g : Graph) (label : Label) : Option Node :=
  (g.toList.find? fun (_, v) => v.holds label).map (·.1)

/-- A line that lists nodes under a heading, or nothing if there are none. -/
def displayNodes (heading : String) (ns : NodeSet) : String :=
  if ns.isEmpty then "" else s!"  {heading}: {Node.displayAll ns.toList}\n"

def displayVertex (n : Node) (v : Vertex) : String :=
  s!"{n.display}: {v.role.display}\n" ++
    String.join (v.instructions.map fun i => s!"    {i.display}\n") ++
    displayNodes "preds" v.preds ++ displayNodes "succs" v.succs

/-- Lists every vertex with its role, instructions and edges. -/
def display (g : Graph) : String :=
  String.join (g.toList.map fun (n, v) => displayVertex n v)

end Graph
end FlowGraph
