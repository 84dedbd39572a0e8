import FlowGraph.Proofs.Reachability

/-! The traversal as a recursion. A recursive search visits a node that it has not
met by visiting its successors, the last of them first, and finishes the node
behind them. It needs no stack and so meets no copy of a node that waits on one. A
traversal does meet such copies: it puts a node on the stack once for each of its
predecessors that is met before it. When a copy comes to the top, all that was met
since it was put there has been finished, so it is either new, and the recursive
search visits it at the same moment, or finished, and taking it off changes
nothing. -/
namespace FlowGraph.Graph

variable {g : Graph}

/-- What a recursive search has done since a point at which `before` had been
met: the nodes met by now, and the nodes finished since, in order. -/
structure Explored (before : List Node) where
  met : List Node
  order : List Node
  met_iff : ∀ m, m ∈ met ↔ m ∈ before ∨ m ∈ order
  new : ∀ m ∈ order, m ∉ before

namespace Explored

def nothing (before : List Node) : Explored before where
  met := before
  order := []
  met_iff := by simp
  new := by simp

/-- A node is finished behind what was visited from it and before what comes after it. -/
def finish {before : List Node} {n : Node} (unmet : n ∉ before) (inner : Explored (n :: before))
    (outer : Explored inner.met) : Explored before where
  met := outer.met
  order := inner.order ++ n :: outer.order
  met_iff := by
    intro m
    rw [outer.met_iff, inner.met_iff, List.mem_append, List.mem_cons, List.mem_cons]
    tauto
  new := by
    intro m member
    obtain inside | behind := List.mem_append.mp member
    · exact mt (List.mem_cons_of_mem n) (inner.new m inside)
    · obtain rfl | later := List.mem_cons.mp behind
      · exact unmet
      · intro old
        exact outer.new m later ((inner.met_iff m).mpr (.inl (List.mem_cons_of_mem n old)))

theorem met_of_before {before : List Node} (e : Explored before) {m : Node} (old : m ∈ before) :
    m ∈ e.met := (e.met_iff m).mpr (.inl old)

end Explored

theorem unmet_anti {met before : List Node} (kept : ∀ m ∈ before, m ∈ met) :
    g.unmet met ≤ g.unmet before := by
  rw [unmet, unmet, ← List.countP_eq_length_filter, ← List.countP_eq_length_filter]
  apply List.countP_mono_left
  intro m _ new
  simp only [Bool.not_eq_true', List.contains_eq_mem, decide_eq_false_iff_not] at new ⊢
  exact mt (kept m) new

/-- Visits the nodes of a list one after another, passing over those that have
been met by then. The successors of a node are listed in ascending order, and so they
are visited in descending order. A node that is not in the graph ends the search
without a result. -/
def visit? (g : Graph) (met : List Node) : (nodes : List Node) → Option (Explored met)
  | [] => some (.nothing met)
  | n :: rest =>
      if new : n ∈ met then g.visit? met rest
      else
        match _known : g.succs? n with
        | none => none
        | some succs =>
            (g.visit? (n :: met) succs.reverse).bind fun inner =>
              (g.visit? inner.met rest).map (.finish new inner)
termination_by nodes => (g.unmet met, nodes.length)
decreasing_by
  · exact Prod.Lex.right _ (Nat.lt_succ_self _)
  · exact Prod.Lex.left _ _ (unmet_cons_lt (mem_nodes_of_succs? (by assumption)) (by assumption))
  · refine Prod.Lex.left _ _ (Nat.lt_of_le_of_lt (unmet_anti ?_)
      (unmet_cons_lt (mem_nodes_of_succs? (by assumption)) (by assumption)))
    exact fun m => inner.met_of_before

/-- The order in which a recursive search from the enter node finishes nodes. -/
def recursiveOrder? (g : Graph) : Option (List Node) :=
  (g.visit? [] [.enter]).map (·.order)

variable {met finished rest succs : List Node} {n : Node}

theorem visit?_nil (g : Graph) (met : List Node) : g.visit? met [] = some (.nothing met) := by
  rw [visit?]

theorem visit?_old (old : n ∈ met) : g.visit? met (n :: rest) = g.visit? met rest := by
  rw [visit?, dif_pos old]

theorem visit?_lost (new : n ∉ met) (unknown : g.succs? n = none) :
    g.visit? met (n :: rest) = none := by
  rw [visit?, dif_neg new]
  split
  · rfl
  · next known =>
      rw [unknown] at known
      cases known

theorem visit?_new (new : n ∉ met) (known : g.succs? n = some succs) :
    g.visit? met (n :: rest) = (g.visit? (n :: met) succs.reverse).bind fun inner =>
      (g.visit? inner.met rest).map (.finish new inner) := by
  rw [visit?, dif_neg new]
  split
  · next unknown =>
      rw [unknown] at known
      cases known
  · next known' =>
      cases known.symm.trans known'
      rfl

theorem traverse?_nil (g : Graph) (met finished : List Node) :
    g.traverse? met finished [] = some finished.reverse := by
  rw [traverse?]

theorem traverse?_old (old : n ∈ met) (stack : List Node) :
    g.traverse? met finished (n :: stack) =
      g.traverse? met (if n ∈ finished then finished else n :: finished) stack :=
  Search.resume?_turn (.finish old)

theorem traverse?_lost (new : n ∉ met) (unknown : g.succs? n = none) (stack : List Node) :
    g.traverse? met finished (n :: stack) = none := by
  rw [traverse?, if_neg new]
  split
  · rfl
  · next known =>
      rw [unknown] at known
      cases known

theorem traverse?_new (new : n ∉ met) (known : g.succs? n = some succs) (stack : List Node) :
    g.traverse? met finished (n :: stack) =
      g.traverse? (n :: met) finished
        ((succs.filter fun m => m ∉ n :: met).reverse ++ n :: stack) :=
  Search.resume?_turn (.discover new known)

/-- On top of a stack wait those nodes of a list that were not `old` when they were
put there. None of them has been met and is still to be finished. -/
structure Ready (met finished old waiting : List Node) : Prop where
  old_met : ∀ m ∈ old, m ∈ met
  finished_met : ∀ m ∈ finished, m ∈ met
  settled : ∀ m ∈ waiting, m ∉ old → m ∈ met → m ∈ finished

namespace Ready

variable {old waiting : List Node}

theorem tail (h : Ready met finished old (n :: rest)) : Ready met finished old rest :=
  ⟨h.old_met, h.finished_met, fun m member => h.settled m (List.mem_cons_of_mem n member)⟩

/-- The nodes that a new node puts on the stack are new themselves. -/
theorem discover (h : Ready met finished old waiting) (n : Node) (nodes : List Node) :
    Ready (n :: met) finished (n :: met) nodes where
  old_met := fun _ => id
  finished_met := fun m done => List.mem_cons_of_mem n (h.finished_met m done)
  settled := fun _ _ fresh seen => absurd seen fresh

/-- Behind a node that has been finished, all that was met from it is finished too. -/
theorem resume (h : Ready met finished old (n :: rest)) (inner : Explored (n :: met)) :
    Ready inner.met (n :: (inner.order.reverse ++ finished)) old rest where
  old_met := by
    intro m passed
    exact inner.met_of_before (List.mem_cons_of_mem n (h.old_met m passed))
  finished_met := by
    intro m done
    rw [List.mem_cons, List.mem_append, List.mem_reverse] at done
    obtain rfl | since | earlier := done
    · exact inner.met_of_before List.mem_cons_self
    · exact (inner.met_iff m).mpr (.inr since)
    · exact inner.met_of_before (List.mem_cons_of_mem n (h.finished_met m earlier))
  settled := by
    intro m member fresh seen
    rw [List.mem_cons, List.mem_append, List.mem_reverse]
    obtain before | since := (inner.met_iff m).mp seen
    · obtain same | earlier := List.mem_cons.mp before
      · exact .inl same
      · exact .inr (.inr (h.settled m (List.mem_cons_of_mem n member) fresh earlier))
    · exact .inr (.inl since)

end Ready

/-- A traversal clears ready nodes off its stack as a recursive search visits them,
and finishes what the search finishes. -/
theorem traverse?_append {old waiting : List Node} (ready : Ready met finished old waiting)
    (stack : List Node) :
    g.traverse? met finished ((waiting.filter fun m => m ∉ old) ++ stack) =
      (g.visit? met waiting).bind fun e =>
        g.traverse? e.met (e.order.reverse ++ finished) stack := by
  induction met, waiting using visit?.induct g generalizing old finished stack with
  | case1 met =>
      rw [visit?_nil]
      rfl
  | case2 met n rest seen ih =>
      rw [visit?_old seen, ← ih ready.tail stack]
      by_cases passed : n ∈ old
      · rw [List.filter_cons_of_neg (by simpa using passed)]
      · have done : n ∈ finished := ready.settled n List.mem_cons_self passed seen
        rw [List.filter_cons_of_pos (by simpa using passed), List.cons_append, traverse?_old seen,
          if_pos done]
  | case3 met n rest new unknown =>
      have waits : n ∉ old := mt (ready.old_met n) new
      rw [visit?_lost new unknown, List.filter_cons_of_pos (by simpa using waits),
        List.cons_append, traverse?_lost new unknown]
      rfl
  | case4 met n rest new succs known inside behind =>
      have waits : n ∉ old := mt (ready.old_met n) new
      rw [visit?_new new known, List.filter_cons_of_pos (by simpa using waits), List.cons_append,
        traverse?_new new known, ← List.filter_reverse, inside (ready.discover n _),
        Option.bind_assoc]
      congr 1
      funext inner
      -- The node has come to the top again and is finished now.
      have unfinished : n ∉ inner.order.reverse ++ finished := by
        rw [List.mem_append, List.mem_reverse, not_or]
        exact ⟨fun early => inner.new n early List.mem_cons_self, mt (ready.finished_met n) new⟩
      rw [traverse?_old (inner.met_of_before List.mem_cons_self), if_neg unfinished,
        behind inner (ready.resume inner), Option.bind_map]
      congr 1
      funext outer
      simp [Explored.finish]

theorem postOrder?_eq_recursiveOrder? (g : Graph) : g.postOrder? = g.recursiveOrder? := by
  have ready : Ready [] [] [] [Node.enter] := ⟨by simp, by simp, by simp⟩
  have same := traverse?_append (g := g) ready []
  have order : (fun e : Explored [] => g.traverse? e.met (e.order.reverse ++ []) []) =
      fun e => some e.order := by
    funext e
    rw [List.append_nil, traverse?_nil, List.reverse_reverse]
  rw [order] at same
  rw [recursiveOrder?, Option.map_eq_bind]
  exact same

/-- A traversal and a recursive search give the same post-order, and they give one
exactly for the graphs that no walk from the enter node leaves. -/
theorem postOrder_is_recursive (g : Graph) :
    g.postOrder? = g.recursiveOrder? ∧ (g.recursiveOrder?.isSome = true ↔ g.Closed) := by
  refine ⟨postOrder?_eq_recursiveOrder? g, ?_⟩
  rw [← postOrder?_eq_recursiveOrder?, Option.isSome_iff_exists]
  constructor
  · rintro ⟨order, found⟩
    exact (postOrder?_eq_some found).2.2
  · exact Closed.exists_postOrder

end FlowGraph.Graph
