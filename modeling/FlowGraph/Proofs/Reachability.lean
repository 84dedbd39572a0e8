import FlowGraph.Graph.Traversal
import FlowGraph.Graph.Walk
import FlowGraph.Proofs.Vertices

/-! What a traversal finds. A traversal is a sequence of turns, each of which
looks at the top of the stack. Every turn uses up some of the work that a graph
can give, so the turns come to an end. They keep what has been met and what is
on the stack between two bounds: all of it can be reached from the enter node,
and an edge from a node that has been met leads to nothing else. -/
namespace FlowGraph.Graph

/-- What a traversal holds between two turns, as `traverse?` takes it. -/
structure Search where
  met : List Node
  finished : List Node
  stack : List Node

namespace Search

/-- Before the first turn. -/
def start : Search := ⟨[], [], [.enter]⟩

/-- One turn. No turn is left when the stack is empty, or when the node on top
is new and not in the graph. -/
inductive Turn (g : Graph) : Search → Search → Prop where
  | finish {met finished stack : List Node} {n : Node} : n ∈ met →
      Turn g ⟨met, finished, n :: stack⟩
        ⟨met, if n ∈ finished then finished else n :: finished, stack⟩
  | discover {met finished stack succs : List Node} {n : Node} : n ∉ met →
      g.succs? n = some succs →
      Turn g ⟨met, finished, n :: stack⟩
        ⟨n :: met, finished, (succs.filter fun m => m ∉ n :: met).reverse ++ n :: stack⟩

/-- Some number of turns. -/
inductive Turns (g : Graph) : Search → Search → Nat → Prop where
  | none (s : Search) : Turns g s s 0
  | more {s t last : Search} {count : Nat} : Turn g s t → Turns g t last count →
      Turns g s last (count + 1)

/-- What a traversal that has come to this gives. -/
def result? (s : Search) : Option (List Node) :=
  if s.stack = [] then some s.finished.reverse else none

/-- The next turn, if there is one. -/
def next? (g : Graph) (s : Search) : Option Search :=
  match s.stack with
  | [] => none
  | n :: stack =>
      if s.met.contains n then
        some ⟨s.met, if s.finished.contains n then s.finished else n :: s.finished, stack⟩
      else
        (g.succs? n).map fun succs =>
          ⟨n :: s.met, s.finished,
            (succs.filter fun m => !(n :: s.met).contains m).reverse ++ n :: stack⟩

/-- What a number of turns come to. -/
def after? (g : Graph) : Nat → Search → Option Search
  | 0, s => some s
  | count + 1, s => (next? g s).bind (after? g count)

end Search

variable {g : Graph}

theorem succs?_eq_some_iff {n : Node} {succs : List Node} :
    g.succs? n = some succs ↔ ∃ v, g.get? n = some v ∧ v.succs.toList = succs :=
  Option.map_eq_some_iff

theorem succs?_eq_none_iff {n : Node} : g.succs? n = none ↔ g.contains n = false := by
  rw [succs?, Option.map_eq_none_iff, ← Option.not_isSome_iff_eq_none, get?, Table.get?_isSome_iff,
    ← Bool.not_eq_true, contains, Table.contains_iff]

theorem contains_of_succs? {n : Node} {succs : List Node} (known : g.succs? n = some succs) :
    g.contains n = true := by
  cases inside : g.contains n with
  | true => rfl
  | false =>
      rw [succs?_eq_none_iff.mpr inside] at known
      cases known

theorem mem_of_edge {n m : Node} {succs : List Node} (known : g.succs? n = some succs)
    (edge : g.Edge n m) : m ∈ succs := by
  obtain ⟨v, read, rfl⟩ := succs?_eq_some_iff.mp known
  obtain ⟨v', read', succ⟩ := edge
  cases read.symm.trans read'
  exact succ

theorem edge_of_mem {n m : Node} {succs : List Node} (known : g.succs? n = some succs)
    (member : m ∈ succs) : g.Edge n m := by
  obtain ⟨v, read, rfl⟩ := succs?_eq_some_iff.mp known
  exact ⟨v, read, member⟩

/-- What holds at the start of a walk and along every edge holds at its end. -/
theorem Reaches.of_closed {a b : Node} (reached : g.Reaches a b) {S : Node → Prop} (first : S a)
    (closed : ∀ n m, S n → g.Edge n m → S m) : S b := by
  obtain ⟨passed, walk⟩ := reached
  induction walk with
  | stay n => exact first
  | step edge _ ih => exact ih (closed _ _ first edge)

theorem Closed.of_edges (entered : g.contains .enter = true)
    (inside : ∀ a b, g.Edge a b → g.contains b = true) : g.Closed := by
  intro n reached
  apply reached.of_closed (S := fun m => g.contains m = true) entered
  intro a b _ edge
  exact inside a b edge

namespace Search

/-! How many turns there can be. -/

/-- What a vertex can still give a traversal to do: unless its node has been met,
a turn to meet it and a turn for each of its successors. -/
def share (met : List Node) (p : Node × Vertex) : Nat :=
  if met.contains p.1 then 0 else p.2.succs.toList.length + 1

def load (met : List Node) : List (Node × Vertex) → Nat
  | [] => 0
  | p :: rest => share met p + load met rest

/-- An upper bound on the turns that are left. -/
def work (g : Graph) (s : Search) : Nat := load s.met g.toList + s.stack.length

theorem share_of_mem {met : List Node} {p : Node × Vertex} (old : p.1 ∈ met) : share met p = 0 :=
  if_pos (List.contains_iff_mem.mpr old)

theorem share_of_not_mem {met : List Node} {p : Node × Vertex} (new : p.1 ∉ met) :
    share met p = p.2.succs.toList.length + 1 :=
  if_neg (mt List.contains_iff_mem.mp new)

theorem share_cons_le (n : Node) (met : List Node) (p : Node × Vertex) :
    share (n :: met) p ≤ share met p := by
  by_cases old : p.1 ∈ n :: met
  · rw [share_of_mem old]
    exact Nat.zero_le _
  · rw [share_of_not_mem old, share_of_not_mem (mt (List.mem_cons_of_mem n) old)]

theorem load_cons_le (n : Node) (met : List Node) (vertices : List (Node × Vertex)) :
    load (n :: met) vertices ≤ load met vertices := by
  induction vertices with
  | nil => exact Nat.le_refl _
  | cons p rest ih => exact Nat.add_le_add (share_cons_le n met p) ih

/-- Meeting a node takes its share off the load. -/
theorem load_cons_add_le {n : Node} {v : Vertex} {met : List Node} (new : n ∉ met)
    {vertices : List (Node × Vertex)} (member : (n, v) ∈ vertices) :
    load (n :: met) vertices + (v.succs.toList.length + 1) ≤ load met vertices := by
  induction member with
  | head rest =>
      have before : share met (n, v) = v.succs.toList.length + 1 := share_of_not_mem new
      have after : share (n :: met) (n, v) = 0 := share_of_mem List.mem_cons_self
      have others := load_cons_le n met rest
      rw [load, load, before, after]
      omega
  | tail p _ ih =>
      have first := share_cons_le n met p
      rw [load, load]
      omega

theorem load_nil (vertices : List (Node × Vertex)) :
    load [] vertices = vertices.length +
      (vertices.flatMap fun p => p.2.succs.toList.map fun m => (p.1, m)).length := by
  induction vertices with
  | nil => rfl
  | cons p vertices ih =>
      rw [load, ih, share_of_not_mem List.not_mem_nil, List.flatMap_cons, List.length_append,
        List.length_map, List.length_cons]
      omega

theorem work_start (g : Graph) : work g start = 1 + g.size + g.edges.length := by
  have vertices : g.toList.length = g.size := by
    rw [← List.length_map (·.1), toList, Table.map_fst_toList, Table.keys, List.length_map,
      List.length_range]
    rfl
  have edges : (g.toList.flatMap fun p => p.2.succs.toList.map fun m => (p.1, m)) = g.edges := rfl
  rw [work, start, load_nil, vertices, edges, List.length_singleton]
  omega

theorem work_turn {s t : Search} (turn : Turn g s t) : work g t < work g s := by
  cases turn with
  | finish old => exact Nat.lt_succ_self _
  | @discover met finished stack succs n new known =>
      obtain ⟨v, read, rfl⟩ := succs?_eq_some_iff.mp known
      have share := load_cons_add_le new (Table.mem_toList_of_get? read)
      have pushed := List.length_filter_le (fun m => decide (m ∉ n :: met)) v.succs.toList
      simp only [work, List.length_append, List.length_reverse, List.length_cons]
      rw [← toList] at share
      omega

theorem add_work_turns {s last : Search} {count : Nat} (turns : Turns g s last count) :
    count + work g last ≤ work g s := by
  induction turns with
  | none s => omega
  | more turn _ ih =>
      have less := work_turn turn
      omega

/-! The turns of a traversal and its result. -/

/-- Goes on with a traversal to its end. -/
def resume? (g : Graph) (s : Search) : Option (List Node) := g.traverse? s.met s.finished s.stack

theorem resume?_turn {s t : Search} (turn : Turn g s t) : s.resume? g = t.resume? g := by
  cases turn with
  | finish old => rw [resume?, traverse?, if_pos old, resume?]
  | discover new known =>
      rw [resume?, traverse?, if_neg new]
      split
      · next unknown =>
          rw [known] at unknown
          cases unknown
      · next known' =>
          cases known.symm.trans known'
          rfl

theorem resume?_turns {s last : Search} {count : Nat} (turns : Turns g s last count) :
    s.resume? g = last.resume? g := by
  induction turns with
  | none s => rfl
  | more turn _ ih => exact (resume?_turn turn).trans ih

theorem turn_of_next {s t : Search} (computed : next? g s = some t) : Turn g s t := by
  obtain ⟨met, finished, stack⟩ := s
  cases stack with
  | nil => cases computed
  | cons n stack =>
      simp only [next?, List.contains_iff_mem] at computed
      split at computed
      · next old =>
          cases computed
          exact .finish old
      · next new =>
          obtain ⟨succs, known, rfl⟩ := Option.map_eq_some_iff.mp computed
          simp only [List.contains_eq_mem, ← decide_not]
          exact .discover new known

theorem turns_of_after {s last : Search} {count : Nat} (computed : after? g count s = some last) :
    Turns g s last count := by
  induction count generalizing s with
  | zero =>
      cases computed
      exact .none _
  | succ count ih =>
      obtain ⟨t, first, rest⟩ := Option.bind_eq_some_iff.mp computed
      exact .more (turn_of_next first) (ih rest)

/-- Turns stop at an empty stack, or below a new node that is not in the graph. -/
theorem stopped_cases {s : Search} (stopped : ∀ next, ¬ Turn g s next) :
    s.stack = [] ∨ ∃ n rest, s.stack = n :: rest ∧ n ∉ s.met ∧ g.succs? n = none := by
  obtain ⟨met, finished, stack⟩ := s
  cases stack with
  | nil => exact .inl rfl
  | cons n rest =>
      have new : n ∉ met := fun old => stopped _ (.finish old)
      cases known : g.succs? n with
      | some succs => exact absurd (.discover new known) (stopped _)
      | none => exact .inr ⟨n, rest, rfl, new, known⟩

theorem resume?_of_stopped {s : Search} (stopped : ∀ next, ¬ Turn g s next) :
    s.resume? g = s.result? := by
  obtain empty | ⟨n, rest, top, new, unknown⟩ := stopped_cases stopped
  · rw [resume?, empty, traverse?, result?, if_pos empty]
  · rw [resume?, top, traverse?, if_neg new, result?, if_neg (by simp [top])]
    split
    · rfl
    · next known =>
        rw [unknown] at known
        cases known

/-- From anywhere, turns come to a point where none is left. -/
theorem exists_stopped (g : Graph) (s : Search) :
    ∃ last count, Turns g s last count ∧ ∀ next, ¬ Turn g last next := by
  induction amount : work g s using Nat.strong_induction_on generalizing s with
  | _ amount ih =>
      by_cases more : ∃ t, Turn g s t
      · obtain ⟨t, turn⟩ := more
        obtain ⟨last, count, turns, stopped⟩ := ih _ (amount ▸ work_turn turn) t rfl
        exact ⟨last, count + 1, .more turn turns, stopped⟩
      · exact ⟨s, 0, .none s, not_exists.mp more⟩

/-! What turns keep. -/

/-- What holds between any two turns of a traversal. -/
structure Faithful (g : Graph) (s : Search) : Prop where
  inside : ∀ n ∈ s.met, g.contains n = true
  reached : ∀ n, n ∈ s.met ∨ n ∈ s.stack → g.Reaches .enter n
  finished_met : ∀ n ∈ s.finished, n ∈ s.met
  once : s.finished.Nodup
  waiting : ∀ n ∈ s.met, n ∈ s.finished ∨ n ∈ s.stack
  entered : .enter ∈ s.met ∨ .enter ∈ s.stack
  onward : ∀ n ∈ s.met, ∀ m, g.Edge n m → m ∈ s.met ∨ m ∈ s.stack

theorem faithful_start (g : Graph) : Faithful g start where
  inside := by simp [start]
  reached := by
    intro n known
    obtain rfl : n = .enter := by simpa [start] using known
    exact .refl g _
  finished_met := by simp [start]
  once := List.nodup_nil
  waiting := by simp [start]
  entered := .inr List.mem_cons_self
  onward := by simp [start]

theorem mem_finish {finished : List Node} {n m : Node} :
    (m ∈ if n ∈ finished then finished else n :: finished) ↔ m = n ∨ m ∈ finished := by
  split
  · next done => exact ⟨.inr, fun h => h.elim (fun same => same ▸ done) id⟩
  · exact List.mem_cons

theorem Faithful.finish {met finished stack : List Node} {n : Node}
    (h : Faithful g ⟨met, finished, n :: stack⟩) (old : n ∈ met) :
    Faithful g ⟨met, if n ∈ finished then finished else n :: finished, stack⟩ := by
  -- Only the top of the stack is gone, and it has been met.
  have left : ∀ m, m ∈ met ∨ m ∈ n :: stack → m ∈ met ∨ m ∈ stack := by
    rintro m (known | top)
    · exact .inl known
    · obtain rfl | below := List.mem_cons.mp top
      · exact .inl old
      · exact .inr below
  refine ⟨h.inside, ?_, ?_, ?_, ?_, left _ h.entered, ?_⟩
  · intro m known
    exact h.reached m (known.imp_right (List.mem_cons_of_mem n))
  · intro m done
    obtain rfl | earlier := mem_finish.mp done
    · exact old
    · exact h.finished_met m earlier
  · show (if n ∈ finished then finished else n :: finished).Nodup
    split
    · exact h.once
    · next new => exact List.nodup_cons.mpr ⟨new, h.once⟩
  · intro m known
    rw [mem_finish]
    obtain done | waits := h.waiting m known
    · exact .inl (.inr done)
    · obtain same | below := List.mem_cons.mp waits
      · exact .inl (.inl same)
      · exact .inr below
  · intro m known k edge
    exact left k (h.onward m known k edge)

theorem Faithful.discover {met finished stack succs : List Node} {n : Node}
    (h : Faithful g ⟨met, finished, n :: stack⟩) (known : g.succs? n = some succs) :
    Faithful g
      ⟨n :: met, finished, (succs.filter fun m => m ∉ n :: met).reverse ++ n :: stack⟩ := by
  have here : g.Reaches .enter n := h.reached n (.inr List.mem_cons_self)
  have kept : ∀ m, m ∈ met ∨ m ∈ n :: stack →
      m ∈ n :: met ∨ m ∈ (succs.filter fun m => m ∉ n :: met).reverse ++ n :: stack := by
    intro m before
    exact before.imp (List.mem_cons_of_mem n) (List.mem_append_right _)
  refine ⟨?_, ?_, ?_, h.once, ?_, kept _ h.entered, ?_⟩
  · intro m member
    obtain rfl | earlier := List.mem_cons.mp member
    · exact contains_of_succs? known
    · exact h.inside m earlier
  · rintro m (member | waits)
    · obtain rfl | earlier := List.mem_cons.mp member
      · exact here
      · exact h.reached m (.inl earlier)
    · obtain pushed | before := List.mem_append.mp waits
      · have succ := List.mem_of_mem_filter (List.mem_reverse.mp pushed)
        exact here.trans (.step (edge_of_mem known succ) (.refl g m))
      · exact h.reached m (.inr before)
  · intro m done
    exact List.mem_cons_of_mem n (h.finished_met m done)
  · intro m member
    obtain rfl | earlier := List.mem_cons.mp member
    · exact .inr (List.mem_append_right _ List.mem_cons_self)
    · exact (h.waiting m earlier).imp_right (List.mem_append_right _)
  · intro m member k edge
    obtain rfl | earlier := List.mem_cons.mp member
    · by_cases old : k ∈ m :: met
      · exact .inl old
      · refine .inr (List.mem_append_left _ (List.mem_reverse.mpr ?_))
        exact List.mem_filter.mpr ⟨mem_of_edge known edge, by simpa using old⟩
    · exact kept k (h.onward m earlier k edge)

theorem Faithful.turn {s t : Search} (h : Faithful g s) (turn : Turn g s t) : Faithful g t := by
  cases turn with
  | finish old => exact h.finish old
  | discover _ known => exact h.discover known

theorem Faithful.turns {s last : Search} {count : Nat} (h : Faithful g s)
    (turns : Turns g s last count) : Faithful g last := by
  induction turns with
  | none s => exact h
  | more turn _ ih => exact ih (h.turn turn)

/-- With an empty stack, all that can be reached has been finished. -/
theorem Faithful.mem_finished_iff {s : Search} (h : Faithful g s) (empty : s.stack = [])
    (n : Node) : n ∈ s.finished ↔ g.Reaches .enter n := by
  have nothing : ∀ m, m ∉ s.stack := by
    intro m member
    rw [empty] at member
    cases member
  constructor
  · intro done
    exact h.reached n (.inl (h.finished_met n done))
  · intro reached
    have met : n ∈ s.met := by
      apply reached.of_closed (h.entered.resolve_right (nothing _))
      intro m k known edge
      exact (h.onward m known k edge).resolve_right (nothing k)
    exact (h.waiting n met).resolve_right (nothing n)

end Search

/-! The result of a whole traversal. -/

/-- A traversal stops somewhere, and gives what it has come to. -/
theorem exists_last (g : Graph) :
    ∃ last count, Search.Turns g .start last count ∧ (∀ next, ¬ Search.Turn g last next) ∧
      g.postOrder? = last.result? := by
  obtain ⟨last, count, turns, stopped⟩ := Search.exists_stopped g .start
  exact ⟨last, count, turns, stopped,
    (Search.resume?_turns turns).trans (Search.resume?_of_stopped stopped)⟩

theorem postOrder?_of_turns {last : Search} {count : Nat}
    (turns : Search.Turns g .start last count) (empty : last.stack = []) :
    g.postOrder? = some last.finished.reverse := by
  refine (Search.resume?_turns turns).trans ?_
  rw [Search.resume?, empty, traverse?]

/-- A post-order that is computed in a given number of turns. -/
theorem postOrder?_of_after (count : Nat) {order : List Node}
    (computed : (Search.after? g count .start).bind Search.result? = some order) :
    g.postOrder? = some order := by
  obtain ⟨last, run, result⟩ := Option.bind_eq_some_iff.mp computed
  rw [Search.result?] at result
  split at result
  · next empty =>
      cases result
      exact postOrder?_of_turns (Search.turns_of_after run) empty
  · cases result

theorem postOrder?_eq_some {order : List Node} (found : g.postOrder? = some order) :
    order.Nodup ∧ (∀ n, n ∈ order ↔ g.Reaches .enter n) ∧ g.Closed := by
  obtain ⟨last, count, turns, -, same⟩ := exists_last g
  have faithful := (Search.faithful_start g).turns turns
  rw [same, Search.result?] at found
  split at found
  · next empty =>
      cases found
      have exact := faithful.mem_finished_iff empty
      refine ⟨List.nodup_reverse.mpr faithful.once, ?_, ?_⟩
      · intro n
        rw [List.mem_reverse, exact]
      · intro n reached
        exact faithful.inside n (faithful.finished_met n ((exact n).mpr reached))
  · cases found

theorem postOrder?_eq_none (lost : g.postOrder? = none) :
    ∃ n, g.Reaches .enter n ∧ g.contains n = false := by
  obtain ⟨last, count, turns, stopped, same⟩ := exists_last g
  have faithful := (Search.faithful_start g).turns turns
  rw [same, Search.result?] at lost
  split at lost
  · cases lost
  · next full =>
      obtain empty | ⟨n, rest, top, -, unknown⟩ := Search.stopped_cases stopped
      · exact absurd empty full
      · have waits : n ∈ last.stack := by
          rw [top]
          exact List.mem_cons_self
        exact ⟨n, faithful.reached n (.inr waits), succs?_eq_none_iff.mp unknown⟩

theorem Closed.exists_postOrder (closed : g.Closed) : ∃ order, g.postOrder? = some order := by
  cases found : g.postOrder? with
  | some order => exact ⟨order, rfl⟩
  | none =>
      obtain ⟨n, reached, outside⟩ := postOrder?_eq_none found
      rw [closed n reached] at outside
      cases outside

/-- A traversal comes to its end, fails exactly if some walk leaves the graph,
and otherwise finishes exactly the nodes that can be reached, each of them once. -/
theorem traversal_exact (g : Graph) :
    (∀ s count, Search.Turns g .start s count → count ≤ 1 + g.size + g.edges.length) ∧
    (∃ last count, Search.Turns g .start last count ∧ (∀ next, ¬ Search.Turn g last next) ∧
      g.postOrder? = last.result?) ∧
    (g.postOrder? = none ↔ ∃ n, g.Reaches .enter n ∧ g.contains n = false) ∧
    (g.size = 0 → g.postOrder? = none) ∧
    ∀ order, g.postOrder? = some order →
      (∀ n, order.contains n = true ↔ g.Reaches .enter n) ∧ order.Nodup ∧
      ∀ n, n ∈ order ↔ g.Reaches .enter n := by
  have lost : ∀ n, g.Reaches .enter n → g.contains n = false → g.postOrder? = none := by
    intro n reached outside
    cases found : g.postOrder? with
    | none => rfl
    | some order =>
        rw [(postOrder?_eq_some found).2.2 n reached] at outside
        cases outside
  refine ⟨?_, exists_last g, ⟨postOrder?_eq_none, ?_⟩, ?_, ?_⟩
  · intro s count turns
    have bound := Search.add_work_turns turns
    rw [Search.work_start] at bound
    omega
  · rintro ⟨n, reached, outside⟩
    exact lost n reached outside
  · intro empty
    refine lost .enter (.refl g _) ?_
    rw [← Bool.not_eq_true, contains, Table.contains_iff, ← size, empty]
    exact Nat.not_lt_zero _
  · intro order found
    obtain ⟨once, members, -⟩ := postOrder?_eq_some found
    refine ⟨?_, once, members⟩
    intro n
    rw [List.contains_iff_mem, members]

/-- Two blocks that lead to each other, and one behind them that leads nowhere. -/
def sampleCycle : Graph :=
  ⟨.ofList [{ role := .enter, succs := .ofList [Node.ofIndex 2] }, { role := .exit },
    { role := .block, succs := .ofList [Node.ofIndex 2, Node.ofIndex 3] },
    { role := .block, succs := .ofList [Node.ofIndex 2] },
    { role := .block, succs := .ofList [Node.ofIndex 9] }]⟩

theorem traversal_of_sampleCycle :
    sampleCycle.postOrder? = some [Node.ofIndex 3, Node.ofIndex 2, .enter] ∧
      sampleCycle.Reaches .enter (Node.ofIndex 3) ∧
      ¬ sampleCycle.Reaches .enter (Node.ofIndex 4) := by
  have turns : Search.Turns sampleCycle .start
      ⟨[Node.ofIndex 3, Node.ofIndex 2, .enter],
        [.enter, Node.ofIndex 2, Node.ofIndex 3], []⟩ 6 := by
    refine .more (.discover (by decide) rfl) ?_
    refine .more (.discover (by decide) rfl) ?_
    refine .more (.discover (by decide) rfl) ?_
    refine .more (.finish (by decide)) ?_
    refine .more (.finish (by decide)) ?_
    exact .more (.finish (by decide)) (.none _)
  have found := postOrder?_of_turns turns rfl
  have members := ((traversal_exact sampleCycle).2.2.2.2 _ found).2.2
  refine ⟨found, (members _).mp (by decide), ?_⟩
  rw [← members]
  decide

end FlowGraph.Graph
