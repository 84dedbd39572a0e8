import FlowGraph.Audit
import FlowGraph.Proofs.Reachability
import Mathlib.Data.List.Chain

/-! The rules of well-formed graphs. Each part of an audit lists nothing exactly
if its rule holds, and so an audit, reachability apart, lists nothing exactly
for the graphs that keep all rules. -/
namespace FlowGraph.Audit

variable {g : Graph}

/-- An instruction's transfers of control have their edges. -/
structure Transfers (g : Graph) (v : Vertex) (i : Instruction) : Prop where
  branch : ∀ l, i.target? = some l → ∃ m, g.blockOf? l = some m ∧ m ∈ v.succs
  ret : i.isReturn = true → Node.exit ∈ v.succs

/-- Between two neighbours in a block control neither leaves nor comes in. -/
def Joined (targets : List Label) (a b : Instruction) : Prop :=
  a.isTerminator = false ∧ isTarget targets b.label = false

structure SoundBlock (g : Graph) (v : Vertex) : Prop where
  filled : v.instructions ≠ []
  leads : v.succs ≠ ∅
  straight : v.instructions.IsChain (Joined (blockTargets g))
  transfers : ∀ i ∈ v.instructions, Transfers g v i

structure WellFormed (g : Graph) : Prop where
  enter : ∃ v, g.get? .enter = some v ∧ v.role = .enter ∧ v.preds = ∅
  exit : ∃ v, g.get? .exit = some v ∧ v.role = .exit ∧ v.succs = ∅
  succs : ∀ a v, g.get? a = some v → ∀ b ∈ v.succs, ∃ w, g.get? b = some w ∧ a ∈ w.preds
  preds : ∀ b w, g.get? b = some w → ∀ a ∈ w.preds, ∃ v, g.get? a = some v ∧ b ∈ v.succs
  blocks : ∀ n v, g.get? n = some v → v.isBlock = true → SoundBlock g v

theorem WellFormed.closed (h : WellFormed g) : g.Closed := by
  have inside : ∀ n v, g.get? n = some v → g.contains n = true := by
    intro n v read
    exact Table.contains_iff.mpr (Graph.lt_size_of_get? read)
  apply Graph.Closed.of_edges
  · obtain ⟨v, read, -⟩ := h.enter
    exact inside _ v read
  · rintro a b ⟨v, read, succ⟩
    obtain ⟨w, there, -⟩ := h.succs a v read b succ
    exact inside b w there

theorem mem_blockTargets_iff (small : g.size ≤ Key.count 32) {l : Label} :
    l ∈ blockTargets g ↔ ∃ n v, g.get? n = some v ∧ v.isBlock = true ∧
      ∃ i ∈ v.instructions, i.target? = some l := by
  simp only [blockTargets, Graph.blockList, Construction.references, List.mem_flatMap,
    List.mem_filter, List.mem_filterMap, Prod.exists, Graph.mem_toList_iff small, and_assoc]

@[simp] theorem issueIf_eq_nil_iff {broken : Bool} {n : Node} {violation : Violation} :
    issueIf broken n violation = [] ↔ broken = false := by
  cases broken <;> simp [issueIf]

theorem endIssues_eq_nil_iff {enter exit : Vertex} :
    endIssues enter exit = [] ↔
      (enter.role = .enter ∧ enter.preds = ∅) ∧ exit.role = .exit ∧ exit.succs = ∅ := by
  simp only [endIssues, List.append_eq_nil_iff, issueIf_eq_nil_iff, bne_eq_false_iff_eq,
    Bool.not_eq_false', KeySet.isEmpty_iff]
  constructor
  · rintro ⟨⟨⟨enterRole, exitRole⟩, noPreds⟩, noSuccs⟩
    exact ⟨⟨enterRole, noPreds⟩, exitRole, noSuccs⟩
  · rintro ⟨⟨enterRole, noPreds⟩, exitRole, noSuccs⟩
    exact ⟨⟨⟨enterRole, exitRole⟩, noPreds⟩, noSuccs⟩

theorem edgeIssues_eq_nil_iff {n : Node} {v : Vertex} :
    edgeIssues g n v = [] ↔
      (∀ m ∈ v.succs, ∃ w, g.get? m = some w ∧ n ∈ w.preds) ∧
      ∀ m ∈ v.preds, ∃ w, g.get? m = some w ∧ n ∈ w.succs := by
  simp only [edgeIssues, recordsPred, recordsSucc, List.append_eq_nil_iff, List.flatMap_eq_nil_iff,
    issueIf_eq_nil_iff, Bool.not_eq_false', Option.any_eq_true, decide_eq_true_eq,
    KeySet.mem_toList]

theorem transferIssues_of_branch {n : Node} {v : Vertex} {i : Instruction} {l : Label}
    (target : i.target? = some l) :
    transferIssues g n v i = [] ↔ ∃ m, g.blockOf? l = some m ∧ m ∈ v.succs := by
  obtain ⟨label, op⟩ := i
  cases op with
  | plain text => cases target
  | ret value => cases target
  | goto l' | branch condition l' =>
      cases target
      rw [transferIssues]
      cases found : g.blockOf? l with
      | none => simp [found]
      | some m => simp [found]

theorem transferIssues_eq_nil_iff {n : Node} {v : Vertex} {i : Instruction} :
    transferIssues g n v i = [] ↔ Transfers g v i := by
  have jump : ∀ l, i.target? = some l → i.isReturn = false →
      (transferIssues g n v i = [] ↔ Transfers g v i) := by
    intro l target goesOn
    rw [transferIssues_of_branch target]
    constructor
    · intro leads
      refine ⟨?_, ?_⟩
      · intro l' target'
        cases target.symm.trans target'
        exact leads
      · intro returns
        rw [goesOn] at returns
        cases returns
    · intro h
      exact h.branch l target
  obtain ⟨label, op⟩ := i
  cases op with
  | plain text =>
      refine ⟨fun _ => ⟨?_, ?_⟩, fun _ => rfl⟩
      · intro l target
        cases target
      · intro returns
        cases returns
  | goto l => exact jump l rfl rfl
  | branch condition l => exact jump l rfl rfl
  | ret value =>
      rw [transferIssues, issueIf_eq_nil_iff]
      constructor
      · intro leads
        refine ⟨?_, ?_⟩
        · intro l target
          cases target
        · intro _
          simpa using leads
      · intro h
        simpa using h.ret rfl

/-- The instructions of a block are in order if no two neighbours are apart, all
have their edges, and the first, unless it may be one, is no target. -/
theorem runIssues_eq_nil_iff {targets : List Label} {n : Node} {v : Vertex} {first : Bool}
    {is : List Instruction} :
    runIssues g targets n v first is = [] ↔
      (∀ i ∈ is.head?, first = false → isTarget targets i.label = false) ∧
      is.IsChain (Joined targets) ∧ ∀ i ∈ is, Transfers g v i := by
  induction is generalizing first with
  | nil => simp [runIssues]
  | cons i rest ih =>
      rw [runIssues, List.append_eq_nil_iff, ih, instructionIssues]
      simp only [List.append_eq_nil_iff, issueIf_eq_nil_iff, transferIssues_eq_nil_iff,
        Bool.and_eq_false_iff, Bool.not_eq_false', List.head?_cons, Option.mem_some_iff,
        forall_eq', List.forall_mem_cons]
      cases rest with
      | nil => cases first <;> simp
      | cons j rest => cases first <;> simp [Joined] <;> tauto

theorem blockIssues_eq_nil_iff {n : Node} {v : Vertex} :
    blockIssues g (blockTargets g) n v = [] ↔ SoundBlock g v := by
  simp only [blockIssues, List.append_eq_nil_iff, issueIf_eq_nil_iff, runIssues_eq_nil_iff]
  rw [List.isEmpty_eq_false_iff, ← Bool.not_eq_true, KeySet.isEmpty_iff]
  constructor
  · rintro ⟨⟨filled, leads⟩, -, straight, transfers⟩
    exact ⟨filled, leads, straight, transfers⟩
  · rintro ⟨filled, leads, straight, transfers⟩
    exact ⟨⟨filled, leads⟩, by simp, straight, transfers⟩

theorem localIssues_eq_nil_iff (small : g.size ≤ Key.count 32) {enter exit : Vertex}
    (atEnter : g.get? .enter = some enter) (atExit : g.get? .exit = some exit) :
    localIssues g enter exit = [] ↔ WellFormed g := by
  simp only [localIssues, List.append_eq_nil_iff, List.flatMap_eq_nil_iff, endIssues_eq_nil_iff,
    edgeIssues_eq_nil_iff, blockIssues_eq_nil_iff, Graph.blockList, List.mem_filter, Prod.forall,
    Graph.mem_toList_iff small]
  constructor
  · rintro ⟨⟨⟨enterRules, exitRules⟩, edges⟩, blocks⟩
    refine ⟨⟨enter, atEnter, enterRules⟩, ⟨exit, atExit, exitRules⟩, ?_, ?_, ?_⟩
    · intro a v read
      exact (edges a v read).1
    · intro b w read
      exact (edges b w read).2
    · intro n v read block
      exact blocks n v ⟨read, block⟩
  · intro h
    obtain ⟨v, readEnter, enterRules⟩ := h.enter
    obtain ⟨w, readExit, exitRules⟩ := h.exit
    cases atEnter.symm.trans readEnter
    cases atExit.symm.trans readExit
    refine ⟨⟨⟨enterRules, exitRules⟩, ?_⟩, ?_⟩
    · intro n v read
      exact ⟨h.succs n v read, h.preds n v read⟩
    · rintro n v ⟨read, block⟩
      exact h.blocks n v read block

theorem issues_of_found {enter exit : Vertex} {order : List Node}
    (atEnter : g.get? .enter = some enter) (atExit : g.get? .exit = some exit)
    (found : g.postOrder? = some order) :
    issues g = .ok (localIssues g enter exit ++
      issueIf (!order.contains Node.exit) .exit .exitUnreachable) := by
  rw [issues, atEnter, atExit, found]

theorem exists_of_issues {found : List Issue} (audited : issues g = .ok found) :
    ∃ enter exit order, g.get? .enter = some enter ∧ g.get? .exit = some exit ∧
      g.postOrder? = some order ∧ found = localIssues g enter exit ++
        issueIf (!order.contains Node.exit) .exit .exitUnreachable := by
  unfold issues at audited
  split at audited
  · next enter exit atEnter atExit =>
      split at audited
      · next order traversed =>
          cases audited
          exact ⟨enter, exit, order, atEnter, atExit, traversed, rfl⟩
      · cases audited
  · cases audited

/-- An audit of a graph that has its first two nodes comes to its end exactly if
no walk from the enter node leaves the graph. -/
theorem exists_issues_iff (two : 2 ≤ g.size) : (∃ found, issues g = .ok found) ↔ g.Closed := by
  constructor
  · rintro ⟨found, audited⟩
    obtain ⟨enter, exit, order, -, -, traversed, -⟩ := exists_of_issues audited
    exact (Graph.postOrder?_eq_some traversed).2.2
  · intro closed
    have atEnter : g.get? .enter = some (g.vertexOf .enter) :=
      Graph.get?_eq_some_vertexOf (Nat.lt_of_lt_of_le (by decide) two)
    have atExit : g.get? .exit = some (g.vertexOf .exit) :=
      Graph.get?_eq_some_vertexOf (Nat.lt_of_lt_of_le (by decide) two)
    obtain ⟨order, traversed⟩ := closed.exists_postOrder
    exact ⟨_, issues_of_found atEnter atExit traversed⟩

/-- All that an audit can find in a well-formed graph is that control does not
come out of it. -/
theorem WellFormed.issues_eq (h : WellFormed g) (small : g.size ≤ Key.count 32) :
    (g.Reaches .enter .exit ∧ issues g = .ok []) ∨
      (¬ g.Reaches .enter .exit ∧ issues g = .ok [⟨.exit, .exitUnreachable⟩]) := by
  obtain ⟨enter, atEnter, -⟩ := h.enter
  obtain ⟨exit, atExit, -⟩ := h.exit
  obtain ⟨order, found⟩ := h.closed.exists_postOrder
  have members := (Graph.postOrder?_eq_some found).2.1 .exit
  rw [issues_of_found atEnter atExit found, (localIssues_eq_nil_iff small atEnter atExit).mpr h,
    List.nil_append, ← members]
  by_cases reached : Node.exit ∈ order
  · exact .inl ⟨reached, by simp [reached, issueIf]⟩
  · exact .inr ⟨reached, by simp [reached, issueIf]⟩

/-- An audit finds nothing exactly in the well-formed graphs that control can
come out of. -/
theorem issues_eq_nil_iff (small : g.size ≤ Key.count 32) :
    issues g = .ok [] ↔ WellFormed g ∧ g.Reaches .enter .exit := by
  constructor
  · intro audited
    obtain ⟨enter, exit, order, atEnter, atExit, traversed, nothing⟩ := exists_of_issues audited
    obtain ⟨rules, reached⟩ := List.append_eq_nil_iff.mp nothing.symm
    rw [issueIf_eq_nil_iff, Bool.not_eq_false', List.contains_iff_mem,
      (Graph.postOrder?_eq_some traversed).2.1] at reached
    exact ⟨(localIssues_eq_nil_iff small atEnter atExit).mp rules, reached⟩
  · rintro ⟨wellFormed, reached⟩
    obtain ⟨-, clean⟩ | ⟨lost, -⟩ := wellFormed.issues_eq small
    · exact clean
    · exact absurd reached lost

end FlowGraph.Audit

namespace FlowGraph.Verifier

/-- Verifying a graph adds what an audit finds, and does nothing else. -/
theorem verifyGraph_eq_ok_iff {v w : Verifier} {g : Graph} :
    v.verifyGraph g = .ok w ↔ ∃ found, Audit.issues g = .ok found ∧
      w = { v with findings := v.findings ++ found.map (Finding.ofIssue v.method) } := by
  unfold verifyGraph
  cases Audit.issues g with
  | error missing => simp [Except.map]
  | ok found => simp [Except.map, eq_comm]

end FlowGraph.Verifier
