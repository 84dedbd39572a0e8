import FlowGraph.Graph.Construction
import FlowGraph.Graph.Traversal

/-! Checking graphs. An audit looks at any graph, however it was made, and lists
every rule of well-formed graphs that it breaks: the roles of the first two
nodes, edges recorded at both ends, blocks that are straight runs of
instructions, and an edge for every transfer of control. A verifier collects
what audits find over many methods. -/
namespace FlowGraph

/-- A rule that a graph breaks. -/
inductive Violation where
  | notEnter
  | notExit
  | enterHasPreds
  | exitHasSuccs
  | succNotRecorded (destination : Node)
  | predNotRecorded (source : Node)
  | emptyBlock
  | noSuccessors
  | terminatorInside (i : Instruction)
  | targetInside (i : Instruction)
  | branchWithoutEdge (i : Instruction) (destination : Node)
  | branchToNowhere (i : Instruction)
  | returnWithoutEdge (i : Instruction)
  | exitUnreachable
deriving DecidableEq

def Violation.message : Violation → String
  | .notEnter => "must be the enter node"
  | .notExit => "must be the exit node"
  | .enterHasPreds => "enter node has predecessors"
  | .exitHasSuccs => "exit node has successors"
  | .succNotRecorded destination => s!"edge to {destination.display} not recorded as predecessor"
  | .predNotRecorded source => s!"edge from {source.display} not recorded as successor"
  | .emptyBlock => "block is empty"
  | .noSuccessors => "block has no successors"
  | .terminatorInside i => s!"terminator `{i.display}` must be at the end of the block"
  | .targetInside i => s!"branch target `{i.display}` must start the block"
  | .branchWithoutEdge i destination => s!"branch `{i.display}` lacks an edge to {destination.display}"
  | .branchToNowhere i => s!"branch `{i.display}` targets no block in the graph"
  | .returnWithoutEdge i => s!"return `{i.display}` lacks an edge to {Node.exit.display}"
  | .exitUnreachable => "exit node is not reachable"

/-- A violation and the node that it is found at. -/
structure Issue where
  node : Node
  violation : Violation
deriving DecidableEq

namespace Audit

/-- An issue that is there only if `broken` holds. -/
def issueIf (broken : Bool) (node : Node) (violation : Violation) : List Issue :=
  if broken then [⟨node, violation⟩] else []

/-- The first two nodes: their roles, and that no edge goes the wrong way. -/
def endIssues (enter exit : Vertex) : List Issue :=
  issueIf (enter.role != .enter) .enter .notEnter ++
    issueIf (exit.role != .exit) .exit .notExit ++
    issueIf (!enter.preds.isEmpty) .enter .enterHasPreds ++
    issueIf (!exit.succs.isEmpty) .exit .exitHasSuccs

/-- Whether the node `m` records `n` as a predecessor. -/
def recordsPred (g : Graph) (m n : Node) : Bool := (g.get? m).any (n ∈ ·.preds)

/-- Whether the node `m` records `n` as a successor. -/
def recordsSucc (g : Graph) (m n : Node) : Bool := (g.get? m).any (n ∈ ·.succs)

/-- Every edge is recorded at both ends. -/
def edgeIssues (g : Graph) (n : Node) (v : Vertex) : List Issue :=
  (v.succs.toList.flatMap fun m => issueIf (!recordsPred g m n) n (.succNotRecorded m)) ++
    v.preds.toList.flatMap fun m => issueIf (!recordsSucc g m n) n (.predNotRecorded m)

/-- The labels that branches in blocks refer to. -/
def blockTargets (g : Graph) : List Label :=
  g.blockList.flatMap fun (_, v) => Construction.references v.instructions

/-- The transfer of control by an instruction has its edge. -/
def transferIssues (g : Graph) (n : Node) (v : Vertex) (i : Instruction) : List Issue :=
  match i.op with
  | .plain _ => []
  | .goto target | .branch _ target =>
      match g.blockOf? target with
      | some m => issueIf (m ∉ v.succs) n (.branchWithoutEdge i m)
      | none => [⟨n, .branchToNowhere i⟩]
  | .ret _ => issueIf (Node.exit ∉ v.succs) n (.returnWithoutEdge i)

/-- Whether a label is one of the given targets. -/
def isTarget (targets : List Label) (label : Option Label) : Bool :=
  label.any targets.contains

/-- One instruction of a block, given whether it is the first and the last. -/
def instructionIssues (g : Graph) (targets : List Label) (n : Node) (v : Vertex)
    (first last : Bool) (i : Instruction) : List Issue :=
  issueIf (i.isTerminator && !last) n (.terminatorInside i) ++
    issueIf (isTarget targets i.label && !first) n (.targetInside i) ++
    transferIssues g n v i

/-- The instructions of a block from a given one on. -/
def runIssues (g : Graph) (targets : List Label) (n : Node) (v : Vertex) :
    (first : Bool) → List Instruction → List Issue
  | _, [] => []
  | first, i :: rest =>
      instructionIssues g targets n v first rest.isEmpty i ++ runIssues g targets n v false rest

/-- One block. -/
def blockIssues (g : Graph) (targets : List Label) (n : Node) (v : Vertex) : List Issue :=
  issueIf v.instructions.isEmpty n .emptyBlock ++ issueIf v.succs.isEmpty n .noSuccessors ++
    runIssues g targets n v true v.instructions

/-- Everything but reachability, for a graph with the given first two vertices. -/
def localIssues (g : Graph) (enter exit : Vertex) : List Issue :=
  let targets := blockTargets g
  endIssues enter exit ++ (g.toList.flatMap fun (n, v) => edgeIssues g n v) ++
    g.blockList.flatMap fun (n, v) => blockIssues g targets n v

/-- All issues of a graph, in order. The audit is cut short if one of the first
two nodes is missing or an edge leads out of the graph on the way from the
enter node. -/
def issues (g : Graph) : Except MissingKey (List Issue) :=
  match g.get? .enter, g.get? .exit with
  | some enter, some exit =>
      match g.postOrder? with
      | some reached =>
          .ok (localIssues g enter exit ++ issueIf (!reached.contains Node.exit) .exit .exitUnreachable)
      | none => .error .missingKey
  | _, _ => .error .missingKey

/-- Blocks that nothing leads to are legal, but worth a warning. -/
def lonelyBlocks (g : Graph) : List Node :=
  (g.blockList.filter fun (_, v) => v.preds.isEmpty).map (·.1)

/-- What is told while a graph is audited. -/
def events (g : Graph) : List Event :=
  (lonelyBlocks g).map .noPredecessors ++ (g.postOrder?.map .traversed).toList

end Audit

/-- A reported error: where it was found, if that is known, and its text. -/
structure Finding where
  method : Option String := none
  object : Option String := none
  message : String
deriving DecidableEq

namespace Finding

def ofIssue (method : Option String) (issue : Issue) : Finding :=
  ⟨method, some issue.node.display, issue.violation.message⟩

def display (f : Finding) : String :=
  (f.method.map (· ++ ": ")).getD "" ++ (f.object.map (· ++ ": ")).getD "" ++ f.message

/-- A list of findings, one to a line. -/
def displayAll (fs : List Finding) : String :=
  String.join (fs.map fun f => s!"- {f.display}\n")

end Finding

/-- What has been found so far, and the method that is being looked at. -/
structure Verifier where
  findings : List Finding := []
  method : Option String := none
deriving DecidableEq

namespace Verifier

/-- Audits a graph. -/
def verifyGraph (v : Verifier) (g : Graph) : Except MissingKey Verifier :=
  (Audit.issues g).map fun issues =>
    { v with findings := v.findings ++ issues.map (Finding.ofIssue v.method) }

/-- Builds and audits the graph of a method. A method without a graph counts as
a finding. -/
def verifyMethod (v : Verifier) (b : Body) : Except MissingKey (Verifier × Option Graph) :=
  let named := { v with method := some s!"method {b.name}" }
  match b.graph with
  | .ok g => (named.verifyGraph g).map fun done => ({ done with method := none }, some g)
  | .error fault =>
      let finding : Finding := { method := named.method, message := fault.message }
      .ok ({ findings := v.findings ++ [finding], method := none }, none)

/-- Builds and audits the graphs of several methods in order. -/
def verifyBodies (v : Verifier) : List Body → Except MissingKey Verifier
  | [] => .ok v
  | b :: rest =>
      match v.verifyMethod b with
      | .ok (next, _) => next.verifyBodies rest
      | .error e => .error e

/-- Builds and audits the graph of every method of a program. -/
def verifyProgram (v : Verifier) (p : Program) : Except MissingKey Verifier :=
  v.verifyBodies p.bodies

/-- What is told while a method is verified. -/
def methodEvents (b : Body) : List Event :=
  Construction.events b.instructions ++
    match b.graph with
    | .ok g => Audit.events g
    | .error _ => []

/-- What is told while a program is verified. -/
def programEvents (p : Program) : List Event := p.bodies.flatMap methodEvents

/-- The verdict: nothing, or all findings. -/
def finish (v : Verifier) : Except (List Finding) Unit :=
  if v.findings.isEmpty then .ok () else .error v.findings

/-- The last words of a program that insists on a verdict without findings. -/
def failureMessage (fs : List Finding) : String := "Verification failed:\n" ++ Finding.displayAll fs

end Verifier
end FlowGraph
