import FlowGraph.Instruction
import FlowGraph.Table

/-! Methods and programs. A program is a table of method bodies in the order in
which they were added; names need not be distinct. -/
namespace FlowGraph

/-- A method: its name, its parameters and its instructions. -/
@[ext]
structure Body where
  name : String
  params : List String := []
  instructions : List Instruction := []
deriving DecidableEq

/-- The key of a method in its program. -/
abbrev MethodKey := Key 32

def MethodKey.display (k : MethodKey) : String := Key.display "m" k

structure Program where
  methods : Table 32 Body := ∅
deriving DecidableEq

namespace Program

def ofList (bodies : List Body) : Program := ⟨.ofList bodies⟩

/-- The key that the next added method gets. -/
def nextKey (p : Program) : MethodKey := p.methods.nextKey

def add (p : Program) (b : Body) : Program := ⟨p.methods.push b⟩

def bodies (p : Program) : List Body := p.methods.values

/-- The methods in order, each with its key. -/
def toList (p : Program) : List (MethodKey × Body) := p.methods.toList

def get? (p : Program) (k : MethodKey) : Option Body := p.methods.get? k

/-- The first method with a given name. -/
def lookup (p : Program) (name : String) : Option MethodKey :=
  (p.toList.find? fun (_, b) => b.name == name).map (·.1)

@[simp] theorem bodies_ofList (bodies : List Body) : (ofList bodies).bodies = bodies := by
  simp [Program.bodies, ofList, Table.values, Table.ofList]

end Program
end FlowGraph
