import FlowGraph.Graph.Basic
import FlowGraph.Log

/-! Depth-first traversal from the node where control enters. The top of a
stack is looked at: a node met for the first time pushes its successors that
have not been met, ascending; a node met before is taken off and finished. The
order in which nodes are finished is the post-order. An edge to a node that is
not in the graph ends the traversal without a result. -/
namespace FlowGraph

namespace Graph

/-- The successors of a node of the graph, in ascending order. -/
def succs? (g : Graph) (n : Node) : Option (List Node) := (g.get? n).map (·.succs.toList)

/-- How many nodes of the graph have not been met. -/
def unmet (g : Graph) (met : List Node) : Nat := (g.nodes.filter fun n => !met.contains n).length

theorem mem_nodes_of_succs? {g : Graph} {n : Node} {ns : List Node} (h : g.succs? n = some ns) :
    n ∈ g.nodes := by
  obtain ⟨v, hv, _⟩ := Option.map_eq_some_iff.mp h
  have bound : n.index < g.vertices.size := Table.get?_isSome_iff.mp (by rw [← get?, hv]; rfl)
  exact List.mem_map.mpr ⟨n.index, List.mem_range.mpr bound, Key.ofIndex_index n⟩

theorem unmet_cons_lt {g : Graph} {n : Node} {met : List Node} (inside : n ∈ g.nodes)
    (new : n ∉ met) : g.unmet (n :: met) < g.unmet met := by
  have all : g.nodes.filter (fun m => !(n :: met).contains m) =
      (g.nodes.filter fun m => !met.contains m).filter fun m => m != n := by
    rw [List.filter_filter]
    congr 1
    funext m
    by_cases same : m = n <;> simp [same]
  rw [unmet, unmet, all]
  refine List.length_filter_lt_length_iff_exists.mpr ⟨n, ?_, by simp⟩
  exact List.mem_filter.mpr ⟨inside, by simpa using new⟩

/-- Goes on with a traversal. `met` and `finished` hold the nodes met and the
nodes finished so far, the latest first, and the top of the stack comes first. -/
def traverse? (g : Graph) (met finished : List Node) : (stack : List Node) → Option (List Node)
  | [] => some finished.reverse
  | n :: stack =>
      if n ∈ met then
        g.traverse? met (if n ∈ finished then finished else n :: finished) stack
      else
        match _known : g.succs? n with
        | none => none
        | some succs =>
            g.traverse? (n :: met) finished
              ((succs.filter fun m => m ∉ n :: met).reverse ++ n :: stack)
termination_by stack => (g.unmet met, stack.length)
decreasing_by
  · exact Prod.Lex.right _ (Nat.lt_succ_self _)
  · exact Prod.Lex.left _ _ (unmet_cons_lt (mem_nodes_of_succs? (by assumption)) (by assumption))

/-- The nodes that can be reached from the enter node, in post-order. -/
def postOrder? (g : Graph) : Option (List Node) := g.traverse? [] [] [.enter]

/-- The same nodes in reverse post-order. -/
def reversePostOrder? (g : Graph) : Option (List Node) := g.postOrder?.map List.reverse

/-- The blocks that are not among the reached nodes. -/
def blocksOutside (g : Graph) (reached : List Node) : List Node :=
  g.blocks.filter fun n => !reached.contains n

/-- The blocks that cannot be reached. -/
def unreachableBlocks? (g : Graph) : Option (List Node) := g.postOrder?.map g.blocksOutside

end Graph
end FlowGraph
