import FlowGraph.Key

/-! The nodes of a graph are 32-bit keys. The first two have fixed meanings:
control enters a method through node 0 and leaves it through node 1. -/
namespace FlowGraph

abbrev Node := Key 32

abbrev NodeSet := KeySet 32

namespace Node

def ofIndex (index : Nat) : Node := Key.ofIndex 32 index

def enter : Node := ofIndex 0

def exit : Node := ofIndex 1

def display (n : Node) : String := Key.display "n" n

/-- Several nodes, separated by commas. -/
def displayAll (ns : List Node) : String := ", ".intercalate (ns.map Node.display)

end Node
end FlowGraph
