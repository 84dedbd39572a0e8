import FlowGraph.Audit
import FlowGraph.Proofs.DeadCode
import FlowGraph.Proofs.NodeNumbers

/-! Blocks that nothing leads to. In a built graph control comes into a block from
the front, along a branch, or from the instruction before it. A block that is left
out by all three stands behind a jump or a return, under no label that a branch
refers to. An audit warns of these blocks and of no others, and a traversal never
comes to them. -/
namespace FlowGraph

namespace Graph

variable {g : Graph} {n : Node}

/-- A node that nothing leads to can be reached from itself alone. -/
theorem not_reaches_of_no_edge {a : Node} (other : a ≠ n) (none : ∀ m, ¬ g.Edge m n) :
    ¬ g.Reaches a n := by
  intro reached
  refine reached.of_closed (S := (· ≠ n)) other ?_ rfl
  rintro m k _ edge rfl
  exact none m edge

theorem Closed.exists_unreachableBlocks (closed : g.Closed) :
    ∃ dead, g.unreachableBlocks? = some dead ∧
      ∀ n, n ∈ dead ↔ n ∈ g.blocks ∧ ¬ g.Reaches .enter n := by
  obtain ⟨order, found⟩ := closed.exists_postOrder
  obtain ⟨-, members, -⟩ := postOrder?_eq_some found
  refine ⟨g.blocksOutside order, ?_, ?_⟩
  · rw [unreachableBlocks?, found, Option.map_some]
  · intro n
    rw [blocksOutside, List.mem_filter, Bool.not_eq_true', ← Bool.not_eq_true,
      List.contains_iff_mem, members]

end Graph

namespace Audit

variable {g : Graph} {n : Node}

theorem mem_lonelyBlocks_iff (small : g.size ≤ Key.count 32) :
    n ∈ lonelyBlocks g ↔ ∃ v, g.get? n = some v ∧ v.isBlock = true ∧ v.preds = ∅ := by
  simp only [lonelyBlocks, Graph.blockList, List.mem_map, List.mem_filter, Prod.exists,
    Graph.mem_toList_iff small, KeySet.isEmpty_iff, and_assoc]
  constructor
  · rintro ⟨m, v, read, block, empty, rfl⟩
    exact ⟨v, read, block, empty⟩
  · rintro ⟨v, read, block, empty⟩
    exact ⟨n, v, read, block, empty, rfl⟩

theorem noPredecessors_mem_events_iff : .noPredecessors n ∈ events g ↔ n ∈ lonelyBlocks g := by
  rw [events, List.mem_append, List.mem_map]
  constructor
  · rintro (⟨m, lonely, same⟩ | traversal)
    · cases same
      exact lonely
    · obtain ⟨order, -, same⟩ := Option.map_eq_some_iff.mp (Option.mem_toList.mp traversal)
      cases same
  · intro lonely
    exact .inl ⟨n, lonely, rfl⟩

end Audit

namespace Construction
open Machine

variable {is : List Instruction} {g : Graph}

/-- A position right behind a jump or a return, whose label, if it carries one, no
branch refers to. -/
structure Stranded (is : List Instruction) (s : Nat) : Prop where
  behind : ∃ p i, s = p + 1 ∧ is[p]? = some i ∧
    ((∃ l, i.op = .goto l) ∨ ∃ value, i.op = .ret value)
  free : ∀ i l, is[s]? = some i → i.label = some l → ∀ j ∈ is, j.target? ≠ some l

theorem goesOn_eq_false_iff {op : Op} :
    goesOn op = false ↔ (∃ l, op = .goto l) ∨ ∃ value, op = .ret value := by
  cases op <;> simp [goesOn]

/-- Something leads to the start of every other block. -/
theorem exists_flow_of_not_stranded {s : Nat} (inside : s < is.length)
    (starts : startsBlock is s = true) (free : ¬ Stranded is s) :
    ∃ a, Flow is (blockAt is) a (blockAt is s) := by
  cases s with
  | zero => exact ⟨_, .enter inside⟩
  | succ p =>
      have before := List.getElem?_eq_getElem (Nat.lt_of_succ_lt inside)
      cases goes : goesOn is[p].op with
      | true => exact ⟨_, .fall before goes inside starts⟩
      | false =>
          by_contra none
          refine free ⟨⟨p, _, rfl, before, goesOn_eq_false_iff.mp goes⟩, ?_⟩
          intro i l hs carried j member target
          obtain ⟨q, hq⟩ := List.mem_iff_getElem?.mp member
          exact none ⟨_, .jump hq target hs carried⟩

/-- Control leaves a list after its last position, and at once if it has none. -/
theorem exists_flow_exit (is : List Instruction) : ∃ a, Flow is (blockAt is) a .exit := by
  cases length : is.length with
  | zero => exact ⟨_, .through length⟩
  | succ p => exact ⟨_, .last length.symm⟩

namespace Built

/-- The first position of a block is one that starts a block. -/
theorem starts_of_heads (h : Built is g) {s : Nat} {n : Node} (head : Heads is g s n) :
    s < is.length ∧ startsBlock is s = true := by
  obtain ⟨v, i, rest, -, -, hs⟩ := head.held
  have inside := (List.getElem?_eq_some_iff.mp hs).1
  obtain ⟨t, le, starts, same, -⟩ := h.exists_start inside
  obtain rfl | before := Nat.eq_or_lt_of_le le
  · exact ⟨inside, starts⟩
  · exact absurd (same.trans head.own) (head.first t before)

/-- Nothing leads to a stranded position. Whatever leads to the start of a block
leads to the one position that starts it. -/
theorem no_flow_of_stranded (h : Built is g) {s : Nat} (inside : s < is.length)
    (starts : startsBlock is s = true) (stranded : Stranded is s) (a : Node) :
    ¬ Flow is (blockAt is) a (blockAt is s) := by
  intro flow
  obtain ⟨p, i, rfl, hp, leaves⟩ := stranded.behind
  have only : ∀ {q : Nat}, q < is.length → startsBlock is q = true →
      blockAt is (p + 1) = blockAt is q → p + 1 = q :=
    fun hq startsQ same => h.starts_unique inside hq starts startsQ same
  have notExit := h.blockAt_ne_exit inside
  generalize destination : blockAt is (p + 1) = b at flow
  cases flow with
  | enter nonempty => cases only nonempty rfl destination
  | through _ => exact notExit destination
  | leave _ _ => exact notExit destination
  | last _ => exact notExit destination
  | @jump _ q j k l hj target hq carried =>
      have targeted := isTargeted_of_carries hj target carried
      obtain rfl := only (List.getElem?_eq_some_iff.mp hq).1 (startsBlock_of_targeted hq targeted)
        destination
      exact stranded.free k l hq carried j (List.mem_of_getElem? hj) target
  | fall hq goes more starts' =>
      cases only more starts' destination
      cases hp.symm.trans hq
      rw [goesOn_eq_false_iff.mpr leaves] at goes
      cases goes

theorem preds_ne_empty (h : Built is g) {a b : Node} (flow : Flow is (blockAt is) a b) :
    (g.vertexOf b).preds ≠ ∅ := by
  intro empty
  have pred := h.mem_preds_iff_flow.mpr flow
  rw [empty] at pred
  exact KeySet.not_mem_empty a pred

theorem preds_eq_empty_iff (h : Built is g) {s : Nat} (inside : s < is.length)
    (starts : startsBlock is s = true) :
    (g.vertexOf (blockAt is s)).preds = ∅ ↔ Stranded is s := by
  constructor
  · intro empty
    by_contra free
    obtain ⟨a, flow⟩ := exists_flow_of_not_stranded inside starts free
    exact h.preds_ne_empty flow empty
  · intro stranded
    apply KeySet.eq_of_mem_iff
    intro a
    rw [h.mem_preds_iff_flow]
    exact iff_of_false (h.no_flow_of_stranded inside starts stranded a) (KeySet.not_mem_empty a)

/-- An audit of a built graph warns of the blocks without predecessors. -/
theorem warned_iff (h : Built is g) {s : Nat} (inside : s < is.length) :
    .noPredecessors (blockAt is s) ∈ Audit.events g ↔
      (g.vertexOf (blockAt is s)).preds = ∅ := by
  have read := h.get?_blockAt inside
  rw [Audit.noPredecessors_mem_events_iff, Audit.mem_lonelyBlocks_iff h.size_le]
  constructor
  · rintro ⟨v, read', -, empty⟩
    rw [Graph.vertexOf_eq read']
    exact empty
  · intro empty
    exact ⟨_, read, (h.isBlock_vertexOf _).mpr (h.index_blockAt_lt inside).1, empty⟩

theorem exists_dead_of_stranded (h : Built is g) {s : Nat} (inside : s < is.length)
    (starts : startsBlock is s = true) (stranded : Stranded is s) :
    ∃ dead, g.unreachableBlocks? = some dead ∧ blockAt is s ∈ dead := by
  obtain ⟨dead, found, members⟩ := h.closed.exists_unreachableBlocks
  refine ⟨dead, found, (members _).mpr ⟨h.blockAt_mem_blocks inside, ?_⟩⟩
  apply Graph.not_reaches_of_no_edge (h.blockAt_ne_enter inside).symm
  intro a edge
  exact h.no_flow_of_stranded inside starts stranded a (h.edge_iff_flow.mp edge)

end Built

/-- The blocks of a built graph without predecessors are those whose first position is
stranded. An audit warns of just these, and they are dead. Something always leads to
the exit node. -/
theorem lonely_iff_stranded (short : is.length ≤ Key.count 32 - 2) (built : build is = .ok g) :
    (∀ n ∈ g.blocks, ∃ s, Heads is g s n) ∧
    (∀ s n, Heads is g s n →
      ((∃ v, g.get? n = some v ∧ v.preds = ∅) ↔ Stranded is s) ∧
      (.noPredecessors n ∈ Audit.events g ↔ Stranded is s) ∧
      (Stranded is s → ∃ dead, g.unreachableBlocks? = some dead ∧ n ∈ dead)) ∧
    (∀ n v, g.get? n = some v → v.instructions = heldFrom (blockAt is) n 0 is) ∧
    ∃ v, g.get? .exit = some v ∧ v.preds ≠ ∅ := by
  have h := Built.of_build short built
  refine ⟨?_, ?_, fun _ _ => h.instructions_of_get?, ?_⟩
  · intro n block
    obtain ⟨s, inside, starts, rfl⟩ := h.mem_blocks_iff_starts.mp block
    exact ⟨s, h.heads inside starts⟩
  · intro s n head
    obtain ⟨inside, starts⟩ := h.starts_of_heads head
    obtain rfl := head.own
    have lonely := h.preds_eq_empty_iff inside starts
    refine ⟨?_, (h.warned_iff inside).trans lonely, h.exists_dead_of_stranded inside starts⟩
    rw [← lonely, h.get?_blockAt inside]
    simp
  · obtain ⟨a, flow⟩ := exists_flow_exit is
    exact ⟨_, Graph.get?_eq_some_vertexOf (h.flow_ends flow).1.2, h.preds_ne_empty flow⟩

theorem lonely_in_sampleLoop :
    sampleLoop.length ≤ Key.count 32 - 2 ∧ ∃ g, build sampleLoop = .ok g ∧
    (.noPredecessors (blockAt sampleLoop 3) ∈ Audit.events g ∧
      ∃ dead, g.unreachableBlocks? = some dead ∧ blockAt sampleLoop 3 ∈ dead) ∧
    .noPredecessors (blockAt sampleLoop 4) ∉ Audit.events g := by
  refine ⟨by decide, _, rfl, ?_⟩
  obtain ⟨-, heads, -⟩ := @lonely_iff_stranded sampleLoop _ (by decide) rfl
  obtain ⟨-, warned, dead⟩ := heads 3 _ ⟨⟨_, _, _, rfl, rfl, rfl⟩, rfl, by decide⟩
  obtain ⟨-, quiet, -⟩ := heads 4 _ ⟨⟨_, _, _, rfl, rfl, rfl⟩, rfl, by decide⟩
  have stranded : Stranded sampleLoop 3 := by
    refine ⟨⟨2, _, rfl, rfl, .inl ⟨_, rfl⟩⟩, ?_⟩
    intro i l read carried
    cases read
    cases carried
  refine ⟨⟨warned.mpr stranded, dead stranded⟩, ?_⟩
  -- The position before is plain, so control goes on from it.
  intro told
  obtain ⟨p, i, same, read, ⟨l, jump⟩ | ⟨value, ret⟩⟩ := (quiet.mp told).behind
  · cases same
    cases read
    cases jump
  · cases same
    cases read
    cases ret

end Construction
end FlowGraph
