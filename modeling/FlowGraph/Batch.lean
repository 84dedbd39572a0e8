import FlowGraph.Audit

/-! Building the graphs of a whole program. Methods share nothing, so each has
a report of its own that depends on its body and its place alone, and one that
fails does not keep the others from being built. -/
namespace FlowGraph

/-- Why a method has no graph in a batch. -/
inductive Failure where
  | construction (fault : Construction.Fault)
  /-- The graph was built but an audit found fault with it. -/
  | verification (findings : List Finding)
deriving DecidableEq

def Failure.message : Failure → String
  | .construction fault => fault.message
  | .verification findings => "verification failed:\n" ++ Finding.displayAll findings

/-- The outcome for one method. -/
structure Report where
  method : MethodKey
  name : String
  result : Except Failure Graph

namespace Report

def isOk (r : Report) : Bool := r.result.isOk

def failure? (r : Report) : Option Failure :=
  match r.result with
  | .ok _ => none
  | .error failure => some failure

end Report

namespace Batch

/-- Lets a graph pass only if an audit finds nothing. -/
def verified (g : Graph) : Except Failure Graph :=
  match Verifier.verifyGraph {} g with
  | .error missing => .error (.construction (.missingKey missing))
  | .ok v =>
      match v.finish with
      | .ok _ => .ok g
      | .error findings => .error (.verification findings)

/-- The graph of a method, audited if `verify` holds. -/
def graphOf (verify : Bool) (b : Body) : Except Failure Graph :=
  match b.graph with
  | .error fault => .error (.construction fault)
  | .ok g => if verify then verified g else .ok g

def buildMethod (verify : Bool) (method : MethodKey) (b : Body) : Report :=
  ⟨method, b.name, graphOf verify b⟩

/-- A report for each method, in order. -/
def buildProgram (verify : Bool) (p : Program) : List Report :=
  p.toList.map fun (method, b) => buildMethod verify method b

/-- What is told while the graph of a method is built for a report. -/
def methodEvents (verify : Bool) (b : Body) : List Event :=
  .methodStarted b.name b.instructions.length :: Construction.events b.instructions ++
    (match b.graph with
      | .ok g => if verify then Audit.events g else []
      | .error _ => []) ++
    match graphOf verify b with
    | .ok _ => []
    | .error failure => [.methodSkipped b.name failure.message]

end Batch

/-- Numbers over a list of reports. -/
structure Statistics where
  methods : Nat := 0
  built : Nat := 0
  failed : Nat := 0
  blocks : Nat := 0
  edges : Nat := 0
deriving DecidableEq

namespace Statistics

def add (a b : Statistics) : Statistics :=
  ⟨a.methods + b.methods, a.built + b.built, a.failed + b.failed, a.blocks + b.blocks,
    a.edges + b.edges⟩

/-- What one report counts for. -/
def ofReport (r : Report) : Statistics :=
  match r.result with
  | .ok g => { methods := 1, built := 1, blocks := g.blocks.length, edges := g.edges.length }
  | .error _ => { methods := 1, failed := 1 }

def ofReports : List Report → Statistics
  | [] => {}
  | r :: rest => (ofReport r).add (ofReports rest)

theorem add_assoc (a b c : Statistics) : (a.add b).add c = a.add (b.add c) := by
  simp only [add, Nat.add_assoc]

theorem empty_add (a : Statistics) : add {} a = a := by
  simp only [add, Nat.zero_add]

/-- The numbers of two lists of reports add up. -/
theorem ofReports_append (rs qs : List Report) :
    ofReports (rs ++ qs) = (ofReports rs).add (ofReports qs) := by
  induction rs with
  | nil => exact (empty_add _).symm
  | cons r rest ih => rw [List.cons_append, ofReports, ofReports, ih, add_assoc]

end Statistics

/-- What is told while the graphs of a program are built one after another. -/
def Batch.programEvents (verify : Bool) (p : Program) : List Event :=
  let total := Statistics.ofReports (buildProgram verify p)
  p.bodies.flatMap (methodEvents verify) ++ [.batchFinished total.built total.methods total.failed]

end FlowGraph
