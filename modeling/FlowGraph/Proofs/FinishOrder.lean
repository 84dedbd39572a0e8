import FlowGraph.Proofs.Reachability

/-! The order in which a traversal finishes nodes. A node that has been met and
not yet finished lies on the stack, and it leads to all that lies above it. So
when it is finished, each of its edges goes to a node that was finished before
or to one that lies below it and has a way back. Read from its end, the order
therefore goes against an edge only where the edge lies on a cycle. -/
namespace FlowGraph.Graph

variable {g : Graph}

namespace Search

variable {met finished stack succs : List Node} {n : Node}

/-- What lies above the uppermost occurrence of a node on a stack. -/
def above (n : Node) (stack : List Node) : List Node := stack.takeWhile fun m => m != n

theorem above_self (n : Node) (stack : List Node) : above n (n :: stack) = [] := by
  simp [above]

theorem above_cons {m : Node} (other : n ≠ m) (stack : List Node) :
    above n (m :: stack) = m :: above n stack := by
  simp [above, Ne.symm other]

theorem above_append {pushed : List Node} (absent : n ∉ pushed) (stack : List Node) :
    above n (pushed ++ stack) = pushed ++ above n stack := by
  induction pushed with
  | nil => rfl
  | cons m pushed ih =>
      obtain ⟨other, absent⟩ := List.ne_and_not_mem_of_not_mem_cons absent
      rw [List.cons_append, above_cons other, ih absent, List.cons_append]

theorem not_mem_pushed {m : Node} (old : m ∈ n :: met) :
    m ∉ (succs.filter fun k => k ∉ n :: met).reverse := by
  intro member
  obtain ⟨-, new⟩ := List.mem_filter.mp (List.mem_reverse.mp member)
  exact of_decide_eq_true new old

/-- What turns keep about order. The two facts about nodes that are not finished
yet say that these form a path, with all other nodes of the stack beside it. -/
structure Ordered (g : Graph) (s : Search) : Prop where
  leads : ∀ n ∈ s.met, n ∉ s.finished → ∀ m ∈ above n s.stack, g.Reaches n m
  ahead : ∀ n ∈ s.met, n ∉ s.finished → ∀ m, g.Edge n m → m ∈ s.met ∨ m ∈ above n s.stack
  settled : ∀ n ∈ s.finished, ∀ m, g.Edge n m → [n, m].Sublist s.finished ∨ g.Reaches m n

theorem ordered_start (g : Graph) : Ordered g start where
  leads := by simp [start]
  ahead := by simp [start]
  settled := by simp [start]

/-- The edges of the node on top when it is finished: those that do not lead to
finished nodes lead to nodes below it, from which there is a way up. -/
theorem Ordered.settles (h : Ordered g ⟨met, finished, n :: stack⟩) (old : n ∈ met)
    (new : n ∉ finished) {m : Node} (edge : g.Edge n m) : m ∈ finished ∨ g.Reaches m n := by
  have known : m ∈ met := by
    obtain known | pending := h.ahead n old new m edge
    · exact known
    · simp [above_self] at pending
  by_cases done : m ∈ finished
  · exact .inl done
  · right
    by_cases same : m = n
    · subst same
      exact .refl g m
    · apply h.leads m known done
      rw [above_cons same]
      exact List.mem_cons_self

theorem Ordered.finish (h : Ordered g ⟨met, finished, n :: stack⟩) (old : n ∈ met) :
    Ordered g ⟨met, if n ∈ finished then finished else n :: finished, stack⟩ := by
  -- A node that stays unfinished is not the one on top, which it had above itself.
  have before : ∀ m, m ∉ (if n ∈ finished then finished else n :: finished) →
      m ∉ finished ∧ above m (n :: stack) = n :: above m stack := by
    intro m waits
    rw [mem_finish, not_or] at waits
    exact ⟨waits.2, above_cons waits.1 stack⟩
  refine ⟨?_, ?_, ?_⟩
  · intro m known waits k higher
    obtain ⟨waited, split⟩ := before m waits
    apply h.leads m known waited
    rw [split]
    exact List.mem_cons_of_mem n higher
  · intro m known waits k edge
    obtain ⟨waited, split⟩ := before m waits
    obtain met | higher := h.ahead m known waited k edge
    · exact .inl met
    · rw [split] at higher
      obtain rfl | higher := List.mem_cons.mp higher
      · exact .inl old
      · exact .inr higher
  · show ∀ m ∈ (if n ∈ finished then finished else n :: finished), ∀ k, g.Edge m k →
      [m, k].Sublist (if n ∈ finished then finished else n :: finished) ∨ g.Reaches k m
    split
    · exact h.settled
    · next new =>
        intro m done k edge
        obtain rfl | earlier := List.mem_cons.mp done
        · apply (h.settles old new edge).imp_left
          intro finishedFirst
          exact (List.singleton_sublist.mpr finishedFirst).cons_cons m
        · apply (h.settled m earlier k edge).imp_left
          intro inOrder
          exact inOrder.cons n

theorem Ordered.discover (h : Ordered g ⟨met, finished, n :: stack⟩) (new : n ∉ met)
    (known : g.succs? n = some succs) :
    Ordered g
      ⟨n :: met, finished, (succs.filter fun m => m ∉ n :: met).reverse ++ n :: stack⟩ := by
  have onTop : above n ((succs.filter fun m => m ∉ n :: met).reverse ++ n :: stack) =
      (succs.filter fun m => m ∉ n :: met).reverse := by
    rw [above_append (not_mem_pushed List.mem_cons_self), above_self, List.append_nil]
  have below : ∀ m ∈ met, above m ((succs.filter fun m => m ∉ n :: met).reverse ++ n :: stack) =
      (succs.filter fun m => m ∉ n :: met).reverse ++ above m (n :: stack) := by
    intro m old
    exact above_append (not_mem_pushed (List.mem_cons_of_mem n old)) _
  have pushed : ∀ m ∈ (succs.filter fun m => m ∉ n :: met).reverse, g.Edge n m := by
    intro m member
    exact edge_of_mem known (List.mem_of_mem_filter (List.mem_reverse.mp member))
  have under : ∀ m ∈ met, n ∈ above m (n :: stack) := by
    intro m old
    rw [above_cons (ne_of_mem_of_not_mem old new)]
    exact List.mem_cons_self
  refine ⟨?_, ?_, h.settled⟩
  · intro m member waits k higher
    obtain rfl | old := List.mem_cons.mp member
    · rw [onTop] at higher
      exact .step (pushed k higher) (.refl g k)
    · rw [below m old] at higher
      obtain fresh | higher := List.mem_append.mp higher
      · exact (h.leads m old waits n (under m old)).trans (.step (pushed k fresh) (.refl g k))
      · exact h.leads m old waits k higher
  · intro m member waits k edge
    obtain rfl | old := List.mem_cons.mp member
    · rw [onTop]
      by_cases seen : k ∈ m :: met
      · exact .inl seen
      · refine .inr (List.mem_reverse.mpr (List.mem_filter.mpr ⟨mem_of_edge known edge, ?_⟩))
        exact decide_eq_true seen
    · rw [below m old]
      exact (h.ahead m old waits k edge).imp (List.mem_cons_of_mem n) (List.mem_append_right _)

/-- The enter node lies at the bottom of the stack, and nowhere else on it, until
it is finished as the last one. -/
structure Grounded (s : Search) : Prop where
  entered : .enter ∈ s.met ∨ s.stack = [.enter]
  bottom : (∃ rest, s.stack = rest ++ [.enter] ∧ .enter ∉ rest ∧ .enter ∉ s.finished) ∨
    s.stack = [] ∧ s.finished.head? = some .enter

theorem grounded_start : Grounded start where
  entered := .inr rfl
  bottom := .inl ⟨[], rfl, List.not_mem_nil, List.not_mem_nil⟩

theorem Grounded.finish (h : Grounded ⟨met, finished, n :: stack⟩) (old : n ∈ met) :
    Grounded ⟨met, if n ∈ finished then finished else n :: finished, stack⟩ := by
  constructor
  · left
    obtain entered | single := h.entered
    · exact entered
    · obtain ⟨rfl, -⟩ := List.cons_eq_cons.mp single
      exact old
  · obtain ⟨rest, split, absent, waits⟩ | ⟨empty, -⟩ := h.bottom
    · cases rest with
      | nil =>
          obtain ⟨rfl, rfl⟩ := List.cons_eq_cons.mp split
          right
          refine ⟨rfl, ?_⟩
          show (if Node.enter ∈ finished then finished else .enter :: finished).head? = _
          rw [if_neg waits]
          rfl
      | cons m rest =>
          obtain ⟨rfl, rfl⟩ := List.cons_eq_cons.mp split
          obtain ⟨other, absent⟩ := List.ne_and_not_mem_of_not_mem_cons absent
          refine .inl ⟨rest, rfl, absent, ?_⟩
          show Node.enter ∉ if n ∈ finished then finished else n :: finished
          rw [mem_finish]
          exact not_or.mpr ⟨other, waits⟩
    · cases empty

theorem Grounded.discover (h : Grounded ⟨met, finished, n :: stack⟩) :
    Grounded
      ⟨n :: met, finished, (succs.filter fun m => m ∉ n :: met).reverse ++ n :: stack⟩ := by
  have entered : .enter ∈ n :: met := by
    obtain entered | single := h.entered
    · exact List.mem_cons_of_mem n entered
    · obtain ⟨rfl, -⟩ := List.cons_eq_cons.mp single
      exact List.mem_cons_self
  refine ⟨.inl entered, ?_⟩
  obtain ⟨rest, split, absent, waits⟩ | ⟨empty, -⟩ := h.bottom
  · refine .inl ⟨(succs.filter fun m => m ∉ n :: met).reverse ++ rest, ?_, ?_, waits⟩
    · show _ ++ n :: stack = _
      rw [show n :: stack = rest ++ [.enter] from split, List.append_assoc]
    · rw [List.mem_append]
      exact not_or.mpr ⟨not_mem_pushed entered, absent⟩
  · cases empty

theorem Ordered.turns {s last : Search} {count : Nat} (h : Ordered g s)
    (turns : Turns g s last count) : Ordered g last := by
  induction turns with
  | none s => exact h
  | more turn _ ih =>
      cases turn with
      | finish old => exact ih (h.finish old)
      | discover new known => exact ih (h.discover new known)

theorem Grounded.turns {s last : Search} {count : Nat} (h : Grounded s)
    (turns : Turns g s last count) : Grounded last := by
  induction turns with
  | none s => exact h
  | more turn _ ih =>
      cases turn with
      | finish old => exact ih (h.finish old)
      | discover _ _ => exact ih h.discover

end Search

/-- No edge on the way from the enter node lies on a cycle. -/
def Acyclic (g : Graph) : Prop := ∀ u v, g.Reaches .enter u → g.Edge u v → ¬ g.Reaches v u

/-- An order of the nodes that can be reached, in which every edge goes forward. -/
structure TopologicalOrder (g : Graph) (order : List Node) : Prop where
  once : order.Nodup
  members : ∀ n, n ∈ order ↔ g.Reaches .enter n
  forward : ∀ u v, g.Reaches .enter u → g.Edge u v → [u, v].Sublist order

theorem Acyclic.of_rank (rank : Node → Nat) (rises : ∀ u v, g.Edge u v → rank u < rank v) :
    g.Acyclic := by
  intro u v _ edge back
  have above : rank v ≤ rank u := by
    apply back.of_closed (S := fun m => rank v ≤ rank m) (Nat.le_refl _)
    intro n m high next
    exact Nat.le_of_lt (Nat.lt_of_le_of_lt high (rises n m next))
  exact Nat.not_le_of_lt (rises u v edge) above

/-- The reverse of a post-order, read off the last state of the traversal. -/
theorem reversePostOrder?_eq_some {order : List Node} (found : g.reversePostOrder? = some order) :
    order.head? = some .enter ∧
      ∀ u v, u ∈ order → g.Edge u v → [u, v].Sublist order ∨ g.Reaches v u := by
  obtain ⟨last, count, turns, -, same⟩ := exists_last g
  have ordered := (Search.ordered_start g).turns turns
  have grounded := Search.grounded_start.turns turns
  rw [reversePostOrder?, same, Search.result?] at found
  split at found
  · next empty =>
      rw [Option.map_some, List.reverse_reverse, Option.some_inj] at found
      subst found
      refine ⟨?_, fun u v done edge => ordered.settled u done v edge⟩
      obtain ⟨rest, full, -⟩ | ⟨-, first⟩ := grounded.bottom
      · rw [empty] at full
        simp at full
      · exact first
  · cases found

/-- Reverse post-order starts at the enter node and goes against an edge only if
the edge lies on a cycle; without cycles it is a topological order. -/
theorem reversePostOrder_respects_edges (closed : g.Closed) :
    ∃ order, g.reversePostOrder? = some order ∧ order.head? = some .enter ∧
      order.Nodup ∧ (∀ n, n ∈ order ↔ g.Reaches .enter n) ∧
      (∀ u v, g.Reaches .enter u → g.Edge u v → [u, v].Sublist order ∨ g.Reaches v u) ∧
      (g.Acyclic → g.TopologicalOrder order) := by
  obtain ⟨finished, found⟩ := closed.exists_postOrder
  obtain ⟨once, members, -⟩ := postOrder?_eq_some found
  have reversed : g.reversePostOrder? = some finished.reverse := by
    rw [reversePostOrder?, found, Option.map_some]
  obtain ⟨first, order⟩ := reversePostOrder?_eq_some reversed
  have once' : finished.reverse.Nodup := List.nodup_reverse.mpr once
  have members' : ∀ n, n ∈ finished.reverse ↔ g.Reaches .enter n := by
    intro n
    rw [List.mem_reverse, members]
  have edges : ∀ u v, g.Reaches .enter u → g.Edge u v →
      [u, v].Sublist finished.reverse ∨ g.Reaches v u := by
    intro u v reached edge
    exact order u v ((members' u).mpr reached) edge
  refine ⟨finished.reverse, reversed, first, once', members', edges, ?_⟩
  intro acyclic
  refine ⟨once', members', ?_⟩
  intro u v reached edge
  exact (edges u v reached edge).resolve_right (acyclic u v reached edge)

/-- A graph in which one way to a block is a part of another, so that a traversal
has the block on its stack twice. -/
def sampleShortcut : Graph :=
  ⟨.ofList [{ role := .enter, succs := .ofList [Node.ofIndex 2, Node.ofIndex 3] }, { role := .exit },
    { role := .block, succs := .ofList [Node.exit] },
    { role := .block, succs := .ofList [Node.exit, Node.ofIndex 2] }]⟩

theorem reversePostOrder_of_sampleShortcut :
    sampleShortcut.Closed ∧ sampleShortcut.Acyclic ∧
      sampleShortcut.reversePostOrder? = some [.enter, Node.ofIndex 3, Node.ofIndex 2, .exit] ∧
      sampleShortcut.TopologicalOrder [.enter, Node.ofIndex 3, Node.ofIndex 2, .exit] := by
  have found : sampleShortcut.postOrder? =
      some [.exit, Node.ofIndex 2, Node.ofIndex 3, .enter] :=
    postOrder?_of_after 10 (by decide)
  have closed := (postOrder?_eq_some found).2.2
  have acyclic : sampleShortcut.Acyclic := by
    apply Acyclic.of_rank [Node.enter, Node.ofIndex 3, Node.ofIndex 2, .exit].idxOf
    intro u v edge
    have rises : ∀ p ∈ sampleShortcut.edges,
        [Node.enter, Node.ofIndex 3, Node.ofIndex 2, .exit].idxOf p.1 <
          [Node.enter, Node.ofIndex 3, Node.ofIndex 2, .exit].idxOf p.2 := by
      decide
    exact rises (u, v) ((mem_edges_iff (by decide)).mpr edge)
  obtain ⟨order, reversed, -, -, -, -, topological⟩ := reversePostOrder_respects_edges closed
  have same : sampleShortcut.reversePostOrder? =
      some [.enter, Node.ofIndex 3, Node.ofIndex 2, .exit] := by
    rw [reversePostOrder?, found]
    rfl
  cases same.symm.trans reversed
  exact ⟨closed, acyclic, same, topological acyclic⟩

end FlowGraph.Graph
