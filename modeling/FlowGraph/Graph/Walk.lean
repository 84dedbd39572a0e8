import FlowGraph.Graph.Basic

/-! Walks. A walk follows edges as they are recorded at their sources, so it may
arrive at a node that is not in the graph, but cannot go on from there. -/
namespace FlowGraph.Graph

/-- The graph records an edge at its source. -/
def Edge (g : Graph) (source destination : Node) : Prop :=
  ∃ v, g.get? source = some v ∧ destination ∈ v.succs

/-- A walk from one node to another, with all nodes that it passes. -/
inductive Walk (g : Graph) : Node → Node → List Node → Prop where
  | stay (n : Node) : Walk g n n [n]
  | step {a b c : Node} {passed : List Node} :
      g.Edge a b → Walk g b c passed → Walk g a c (a :: passed)

/-- Some walk leads from one node to another. -/
def Reaches (g : Graph) (source destination : Node) : Prop :=
  ∃ passed, g.Walk source destination passed

/-- The instructions that a walk comes across, in order. -/
def spelled (g : Graph) (passed : List Node) : List Instruction :=
  passed.flatMap fun n => ((g.get? n).map (·.instructions)).getD []

/-- A graph that no walk from the enter node leaves. -/
def Closed (g : Graph) : Prop := ∀ n, g.Reaches .enter n → g.contains n

theorem Reaches.refl (g : Graph) (n : Node) : g.Reaches n n := ⟨[n], .stay n⟩

theorem Reaches.step {g : Graph} {a b c : Node} (first : g.Edge a b) (rest : g.Reaches b c) :
    g.Reaches a c := by
  obtain ⟨passed, walk⟩ := rest
  exact ⟨a :: passed, .step first walk⟩

theorem Walk.append {g : Graph} {a b c : Node} {first second : List Node}
    (left : g.Walk a b first) (right : g.Walk b c (b :: second)) : g.Walk a c (first ++ second) := by
  induction left with
  | stay n => exact right
  | step edge _ ih => exact .step edge (ih right)

theorem Reaches.trans {g : Graph} {a b c : Node} (left : g.Reaches a b) (right : g.Reaches b c) :
    g.Reaches a c := by
  obtain ⟨passed, walk⟩ := left
  induction walk with
  | stay n => exact right
  | step edge _ ih => exact .step edge (ih right)

end FlowGraph.Graph
