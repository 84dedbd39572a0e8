import FlowGraph.Graph.Basic

/-! Graphs in the DOT language. Each node is one statement with the text of its
vertex, followed by one statement for each successor. The instructions of a
block are lines that start at the left. -/
namespace FlowGraph.Dot

/-- Writes a character inside a quoted string. A line break starts a new line at
the left. -/
def escapeChar (c : Char) : List Char :=
  match c with
  | '"' => ['\\', '"']
  | '\\' => ['\\', '\\']
  | '\n' => ['\\', 'l']
  | c => [c]

def escape (text : String) : List Char := text.toList.flatMap escapeChar

/-- The end of a line. -/
def lineEnd : List Char := ['\\', 'l']

/-- The text of a vertex, without quotes. -/
def caption (v : Vertex) : List Char :=
  match v.role with
  | .enter => "enter".toList
  | .exit => "exit".toList
  | .block => lineEnd.intercalate (v.instructions.map fun i => escape i.display) ++ lineEnd

def decimal (n : Nat) : List Char := Nat.toDigits 10 n

def nodeStatement (n : Node) (v : Vertex) : List Char :=
  '\t' :: decimal n.index ++ "[label=\"".toList ++ caption v ++ "\"];\n".toList

def edgeStatement (source destination : Node) : List Char :=
  '\t' :: decimal source.index ++ " -> ".toList ++ decimal destination.index ++ ";\n".toList

def statements (n : Node) (v : Vertex) : List Char :=
  nodeStatement n v ++ v.succs.toList.flatMap (edgeStatement n)

/-- A graph under a title that is written as it is. -/
def digraph (title : List Char) (g : Graph) : List Char :=
  "digraph ".toList ++ title ++ "\n\x7b\n\tnode[shape=\"rect\"];\n".toList ++
    (g.toList.flatMap fun (n, v) => statements n v) ++ "\x7d\n".toList

/-- A graph on its own. -/
def render (g : Graph) : String := String.ofList (digraph "ControlFlow".toList g)

/-- The graph of a method, titled with the method's name. -/
def renderMethod (name : String) (g : Graph) : String :=
  String.ofList (digraph ('"' :: escape name ++ ['"']) g)

end FlowGraph.Dot
