import FlowGraph.Proofs.Execution
import FlowGraph.Proofs.Reachability

/-! Dead code. A block of a built graph can be reached exactly if the machine can
come to one of its positions, and then it can come to all of them. So the blocks
that a traversal misses are those that no run ever executes. -/
namespace FlowGraph.Machine

variable {is : List Instruction}

theorem Run.open_of_step {a b : Point} {ps : List Nat} (run : Run (Step is) a b ps) :
    Run (OpenStep is) a b ps := by
  induction run with
  | stay point => exact .stay point
  | step step _ ih => exact .step (.step step) ih

/-- Leaving early is of no use to come to a position. -/
theorem Run.step_of_open {a : Point} {p : Nat} {ps : List Nat}
    (run : Run (OpenStep is) a (.inside p) ps) : Run (Step is) a (.inside p) ps := by
  generalize goal : Point.inside p = last at run
  induction run with
  | stay point => exact .stay point
  | step step run ih =>
      cases step with
      | step step => exact .step step (ih goal)
      | last _ =>
          cases run with
          | stay => cases goal

theorem executes_iff_open {p : Nat} :
    Executes is p ↔ ∃ ps, Run (OpenStep is) (start is) (.inside p) ps := by
  constructor
  · rintro ⟨ps, run⟩
    exact ⟨ps, run.open_of_step⟩
  · rintro ⟨ps, run⟩
    exact ⟨ps, run.step_of_open⟩

/-- A run comes to every position that it executes. -/
theorem Run.exists_run_to {step : Nat → Point → Prop} {a b : Point} {ps : List Nat} {p : Nat}
    (run : Run step a b ps) (member : p ∈ ps) : ∃ qs, Run step a (.inside p) qs := by
  induction run with
  | stay => cases member
  | step step _ ih =>
      obtain rfl | later := List.mem_cons.mp member
      · exact ⟨[], .stay _⟩
      · obtain ⟨qs, rest⟩ := ih later
        exact ⟨_ :: qs, .step step rest⟩

end FlowGraph.Machine

namespace FlowGraph.Construction
open Machine

variable {is : List Instruction} {g : Graph}

theorem WellLabelled.exists_step (h : WellLabelled is) {p : Nat} (inside : p < is.length) :
    ∃ point, Step is p point := by
  have hp := List.getElem?_eq_getElem inside
  have toTarget : ∀ l, is[p].target? = some l → ∃ point, Step is p point := by
    intro l target
    obtain ⟨q, j, hq, carried⟩ := h.exists_target hp target
    exact ⟨_, .jump hp target (h.positionOf?_eq_some_iff.mpr ⟨j, hq, carried⟩)⟩
  cases op : is[p].op with
  | plain text => exact ⟨_, .next hp (by rw [op]; rfl)⟩
  | goto l => exact toTarget l (by rw [Instruction.target?, op]; rfl)
  | branch condition l => exact toTarget l (by rw [Instruction.target?, op]; rfl)
  | ret value => exact ⟨_, .leave hp (by rw [Instruction.isReturn, op]; rfl)⟩

/-- The machine runs on inside a block. -/
theorem exists_run_inside {s p : Nat} (le : s ≤ p) (inside : p < is.length)
    (joined : ∀ k, s < k → k ≤ p → startsBlock is k = false) :
    ∃ ps, Run (OpenStep is) (.inside s) (.inside p) ps := by
  induction p, le using Nat.le_induction with
  | base => exact ⟨[], .stay _⟩
  | succ p le ih =>
      have before : p < is.length := Nat.lt_of_succ_lt inside
      obtain ⟨ps, run⟩ := ih before fun k low high => joined k low (Nat.le_succ_of_le high)
      have more : endsBlock is p = false := by
        rw [endsBlock, joined (p + 1) (Nat.lt_succ_of_le le) (Nat.le_refl _), Bool.or_false,
          beq_eq_false_iff_ne]
        omega
      exact ⟨_, run.append (.single ((openStep_iff_of_not_ends before more).mpr rfl))⟩

namespace Built

/-- Along a walk the machine comes to where the last block starts. -/
theorem exists_run_to_start (h : Built is g) {a c : Node} {passed : List Node}
    (walk : g.Walk a c passed) {point : Point} (starts : AtStart is point)
    (here : nodeOf is point = a) :
    ∃ last ps, Run (OpenStep is) point last ps ∧ AtStart is last ∧ nodeOf is last = c := by
  induction walk generalizing point with
  | stay n => exact ⟨point, [], .stay _, starts, here⟩
  | @step a b c rest edge walk ih =>
      subst here
      have flow := h.edge_iff_flow.mp edge
      cases point with
      | done => exact absurd rfl (h.flow_ends flow).2.1
      | inside p =>
          obtain ⟨e, ps, run, insideE, endsE, same, -⟩ := h.exists_run_to_end starts.1
          rw [nodeOf, ← same, h.flow_iff_flowFrom insideE endsE,
            flowFrom_iff_openStep h.toWellLabelled] at flow
          obtain ⟨next, step, there⟩ := flow
          obtain ⟨last, qs, rest, startsLast, atLast⟩ :=
            ih (atStart_of_openStep h.toWellLabelled endsE step) there
          exact ⟨last, _, (run.append (.single step)).append rest, startsLast, atLast⟩

theorem starts_unique (h : Built is g) {p q : Nat} (hp : p < is.length) (hq : q < is.length)
    (startsP : startsBlock is p = true) (startsQ : startsBlock is q = true)
    (same : blockAt is p = blockAt is q) : p = q := by
  rcases Nat.lt_trichotomy p q with less | equal | more
  · exact absurd same (h.starts_apart less hq startsP startsQ)
  · exact equal
  · exact absurd same.symm (h.starts_apart more hp startsQ startsP)

theorem inside_of_executes (h : Built is g) {p : Nat} (executes : Executes is p) :
    p < is.length := by
  obtain ⟨ps, run⟩ := executes_iff_open.mp executes
  exact (h.follows_of_run run).1 p List.mem_cons_self

/-- The machine can come to a position exactly if its block can be reached. -/
theorem executes_iff_reaches (h : Built is g) {p : Nat} (inside : p < is.length) :
    Executes is p ↔ g.Reaches .enter (blockAt is p) := by
  rw [executes_iff_open]
  constructor
  · rintro ⟨ps, run⟩
    obtain ⟨-, passed, walk, -⟩ := h.follows_of_run run
    exact ⟨_, walk⟩
  · rintro ⟨passed, walk⟩
    generalize source : Node.enter = a at walk
    cases walk with
    | stay n => exact absurd source.symm (h.blockAt_ne_enter inside)
    | step edge walk =>
        subst source
        obtain ⟨last, ps, run, startsLast, atLast⟩ :=
          h.exists_run_to_start walk (atStart_start is) (h.nodeOf_start_of_edge edge)
        obtain ⟨s, le, starts, same, joined⟩ := h.exists_start inside
        have begin : last = .inside s := by
          cases last with
          | done => exact absurd atLast.symm (h.blockAt_ne_exit inside)
          | inside q =>
              rw [h.starts_unique startsLast.1 (Nat.lt_of_le_of_lt le inside) startsLast.2 starts
                (atLast.trans same.symm)]
        obtain ⟨qs, rest⟩ := exists_run_inside le inside joined
        exact ⟨_, run.append (begin ▸ rest)⟩

theorem executes_iff_mem (h : Built is g) (p : Nat) :
    Executes is p ↔ ∃ point ps, Run (Step is) (start is) point ps ∧ p ∈ ps := by
  constructor
  · intro executes
    obtain ⟨point, step⟩ := h.exists_step (h.inside_of_executes executes)
    obtain ⟨ps, run⟩ := executes
    exact ⟨point, _, run.append (.single step), List.mem_append_right _ List.mem_cons_self⟩
  · rintro ⟨point, ps, run, member⟩
    exact run.exists_run_to member

theorem closed (h : Built is g) : g.Closed := by
  apply Graph.Closed.of_edges
  · exact Table.contains_iff.mpr (Nat.lt_of_lt_of_le (by decide) h.two_le_size)
  · intro a b edge
    exact Table.contains_iff.mpr (h.flow_ends (h.edge_iff_flow.mp edge)).1.2

end Built

/-- The blocks that a traversal of a built graph misses are the dead code of its
list, and no block is dead in part. -/
theorem unreachable_iff_dead (short : is.length ≤ Key.count 32 - 2) (built : build is = .ok g) :
    (∃ dead, g.unreachableBlocks? = some dead ∧ dead.Pairwise (·.index < ·.index) ∧
      ∀ n, n ∈ dead ↔ n ∈ g.blocks ∧
        ∀ p, p < is.length → blockAt is p = n → ¬ Executes is p) ∧
    (∀ n ∈ g.blocks, (∀ p, p < is.length → blockAt is p = n → Executes is p) ∨
      ∀ p, p < is.length → blockAt is p = n → ¬ Executes is p) ∧
    (∀ n v, g.get? n = some v → v.instructions = heldFrom (blockAt is) n 0 is) ∧
    ∀ p, Executes is p ↔ ∃ point ps, Run (Step is) (start is) point ps ∧ p ∈ ps := by
  have h := Built.of_build short built
  obtain ⟨order, found⟩ := h.closed.exists_postOrder
  obtain ⟨-, members, -⟩ := Graph.postOrder?_eq_some found
  refine ⟨⟨g.blocksOutside order, ?_, ?_, ?_⟩, ?_, fun _ _ => h.instructions_of_get?,
    h.executes_iff_mem⟩
  · rw [Graph.unreachableBlocks?, found, Option.map_some]
  · exact (Graph.ascending_blocks h.size_le).sublist List.filter_sublist
  · intro n
    rw [Graph.blocksOutside, List.mem_filter]
    refine and_congr_right fun block => ?_
    rw [Bool.not_eq_true', ← Bool.not_eq_true, List.contains_iff_mem, members]
    constructor
    · rintro missed p inside rfl executes
      exact missed ((h.executes_iff_reaches inside).mp executes)
    · intro dead reached
      obtain ⟨p, inside, -, rfl⟩ := h.mem_blocks_iff_starts.mp block
      exact dead p inside rfl ((h.executes_iff_reaches inside).mpr reached)
  · intro n _
    by_cases reached : g.Reaches .enter n
    · left
      rintro p inside rfl
      exact (h.executes_iff_reaches inside).mpr reached
    · right
      rintro p inside rfl executes
      exact reached ((h.executes_iff_reaches inside).mp executes)

theorem dead_in_sampleLoop :
    sampleLoop.length ≤ Key.count 32 - 2 ∧ ∃ g, build sampleLoop = .ok g ∧
    g.unreachableBlocks? = some [blockAt sampleLoop 3] ∧
    ¬ Executes sampleLoop 3 ∧ Executes sampleLoop 4 := by
  have computed : ∃ g, build sampleLoop = .ok g ∧
      g.unreachableBlocks? = some [blockAt sampleLoop 3] := by
    refine ⟨_, rfl, ?_⟩
    refine Option.map_eq_some_iff.mpr ⟨_, Graph.postOrder?_of_turns (?_ : Graph.Search.Turns _ _
      ⟨[.exit, Node.ofIndex 2, Node.ofIndex 4, Node.ofIndex 3, .enter],
        [.enter, Node.ofIndex 3, Node.ofIndex 2, .exit, Node.ofIndex 4], []⟩ 10) rfl, rfl⟩
    refine .more (.discover (by decide) rfl) ?_
    refine .more (.discover (by decide) rfl) ?_
    refine .more (.discover (by decide) rfl) ?_
    refine .more (.finish (by decide)) ?_
    refine .more (.discover (by decide) rfl) ?_
    refine .more (.discover (by decide) rfl) ?_
    refine .more (.finish (by decide)) ?_
    refine .more (.finish (by decide)) ?_
    refine .more (.finish (by decide)) ?_
    exact .more (.finish (by decide)) (.none _)
  obtain ⟨g, built, listed⟩ := computed
  obtain ⟨⟨dead, found, -, members⟩, -⟩ := unreachable_iff_dead (by decide) built
  cases listed.symm.trans found
  refine ⟨by decide, g, built, listed, ?_, ?_⟩
  · exact ((members _).mp List.mem_cons_self).2 3 (by decide) rfl
  · exact ⟨_, .step (.jump rfl rfl rfl) (.stay _)⟩

end FlowGraph.Construction
