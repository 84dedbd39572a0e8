import FlowGraph.Proofs.Rules

/-! What it means that a verifier accepts a graph. An audit looks at the roles of
the first two nodes only, and at the instructions of blocks only. So an accepted
graph is a proper control flow graph exactly if, besides, no other node has the
role of the first two, and these two hold no instructions. -/
namespace FlowGraph.Audit

variable {g : Graph} {v : Vertex}

/-- Some instruction of the graph, in a node of any role, branches to a label. -/
def Targeted (g : Graph) (l : Label) : Prop :=
  ∃ n v, g.get? n = some v ∧ ∃ i ∈ v.instructions, i.target? = some l

/-- A proper control flow graph: one node to enter and one to leave, neither of
which holds instructions, edges recorded at both ends, and blocks that are
straight runs of instructions with an edge for every transfer of control. -/
structure Proper (g : Graph) : Prop where
  enter : ∃ v, g.get? .enter = some v ∧ v.role = .enter ∧ v.instructions = [] ∧ v.preds = ∅
  exit : ∃ v, g.get? .exit = some v ∧ v.role = .exit ∧ v.instructions = [] ∧ v.succs = ∅
  oneEnter : ∀ n v, g.get? n = some v → v.role = .enter → n = .enter
  oneExit : ∀ n v, g.get? n = some v → v.role = .exit → n = .exit
  edges : ∀ a b, g.Edge a b ↔ ∃ w, g.get? b = some w ∧ a ∈ w.preds
  blocks : ∀ n v, g.get? n = some v → v.isBlock = true → v.instructions ≠ [] ∧ v.succs ≠ ∅
  targets : ∀ n v p i l, g.get? n = some v → v.instructions[p]? = some i → i.label = some l →
    Targeted g l → v.isBlock = true ∧ p = 0
  terminators : ∀ n v p i, g.get? n = some v → v.instructions[p]? = some i →
    i.isTerminator = true → p + 1 = v.instructions.length
  branches : ∀ n v i l, g.get? n = some v → i ∈ v.instructions → i.target? = some l →
    ∃ m, g.blockOf? l = some m ∧ g.Edge n m
  returns : ∀ n v i, g.get? n = some v → i ∈ v.instructions → i.isReturn = true →
    g.Edge n .exit

/-- All nodes but the first two are blocks, and whatever is no block is empty. -/
def PlainEnds (g : Graph) : Prop :=
  ∀ n v, g.get? n = some v → v.isBlock = false → (n = .enter ∨ n = .exit) ∧ v.instructions = []

theorem PlainEnds.isBlock (h : PlainEnds g) {n : Node} (read : g.get? n = some v)
    {i : Instruction} (held : i ∈ v.instructions) : v.isBlock = true := by
  cases block : v.isBlock with
  | true => rfl
  | false =>
      rw [(h n v read block).2] at held
      cases held

theorem SoundBlock.target_first (h : SoundBlock g v) {p : Nat} {i : Instruction}
    (here : v.instructions[p]? = some i) (target : isTarget (blockTargets g) i.label = true) :
    p = 0 := by
  cases p with
  | zero => rfl
  | succ p =>
      obtain ⟨inside, rfl⟩ := List.getElem?_eq_some_iff.mp here
      have joined := List.isChain_iff_getElem.mp h.straight p inside
      rw [joined.2] at target
      cases target

theorem SoundBlock.terminator_last (h : SoundBlock g v) {p : Nat} {i : Instruction}
    (here : v.instructions[p]? = some i) (terminates : i.isTerminator = true) :
    p + 1 = v.instructions.length := by
  obtain ⟨inside, rfl⟩ := List.getElem?_eq_some_iff.mp here
  by_cases more : p + 1 < v.instructions.length
  · have joined := List.isChain_iff_getElem.mp h.straight p more
    rw [joined.1] at terminates
    cases terminates
  · omega

theorem WellFormed.edge_iff (h : WellFormed g) (a b : Node) :
    g.Edge a b ↔ ∃ w, g.get? b = some w ∧ a ∈ w.preds := by
  constructor
  · rintro ⟨v, read, succ⟩
    exact h.succs a v read b succ
  · rintro ⟨w, read, pred⟩
    exact h.preds b w read a pred

/-- With plain ends, the rules that an audit checks on blocks hold everywhere. -/
theorem WellFormed.proper (h : WellFormed g) (small : g.size ≤ Key.count 32)
    (plain : PlainEnds g) : Proper g := by
  have sound : ∀ {n v i}, g.get? n = some v → i ∈ v.instructions → SoundBlock g v := by
    intro n v i read held
    exact h.blocks n v read (plain.isBlock read held)
  obtain ⟨enter, atEnter, enterRole, noPreds⟩ := h.enter
  obtain ⟨exit, atExit, exitRole, noSuccs⟩ := h.exit
  refine ⟨⟨enter, atEnter, enterRole, ?_, noPreds⟩, ⟨exit, atExit, exitRole, ?_, noSuccs⟩,
    ?_, ?_, h.edge_iff, ?_, ?_, ?_, ?_, ?_⟩
  · exact (plain .enter enter atEnter (by rw [Vertex.isBlock, enterRole]; rfl)).2
  · exact (plain .exit exit atExit (by rw [Vertex.isBlock, exitRole]; rfl)).2
  · intro n v read role
    obtain rfl | rfl := (plain n v read (by rw [Vertex.isBlock, role]; rfl)).1
    · rfl
    · cases read.symm.trans atExit
      rw [exitRole] at role
      cases role
  · intro n v read role
    obtain rfl | rfl := (plain n v read (by rw [Vertex.isBlock, role]; rfl)).1
    · cases read.symm.trans atEnter
      rw [enterRole] at role
      cases role
    · rfl
  · intro n v read block
    have soundBlock := h.blocks n v read block
    exact ⟨soundBlock.filled, soundBlock.leads⟩
  · rintro n v p i l read here carried ⟨m, w, there, j, held, target⟩
    have block := plain.isBlock read (List.mem_of_getElem? here)
    refine ⟨block, (h.blocks n v read block).target_first here ?_⟩
    rw [isTarget, carried, Option.any_some, List.contains_iff_mem, mem_blockTargets_iff small]
    exact ⟨m, w, there, plain.isBlock there held, j, held, target⟩
  · intro n v p i read here terminates
    exact (sound read (List.mem_of_getElem? here)).terminator_last here terminates
  · intro n v i l read held target
    obtain ⟨m, found, succ⟩ := ((sound read held).transfers i held).branch l target
    exact ⟨m, found, v, read, succ⟩
  · intro n v i read held returns
    exact ⟨v, read, ((sound read held).transfers i held).ret returns⟩

theorem Proper.plainEnds (h : Proper g) : PlainEnds g := by
  obtain ⟨enter, atEnter, -, emptyEnter, -⟩ := h.enter
  obtain ⟨exit, atExit, -, emptyExit, -⟩ := h.exit
  intro n v read noBlock
  cases role : v.role with
  | enter =>
      obtain rfl := h.oneEnter n v read role
      cases read.symm.trans atEnter
      exact ⟨.inl rfl, emptyEnter⟩
  | exit =>
      obtain rfl := h.oneExit n v read role
      cases read.symm.trans atExit
      exact ⟨.inr rfl, emptyExit⟩
  | block =>
      rw [Vertex.isBlock, role] at noBlock
      cases noBlock

end FlowGraph.Audit

namespace FlowGraph.Verifier
open Audit (WellFormed Proper PlainEnds)

theorem verifyGraph_eq_self_iff {v : Verifier} {g : Graph} (small : g.size ≤ Key.count 32) :
    v.verifyGraph g = .ok v ↔ WellFormed g ∧ g.Reaches .enter .exit := by
  rw [← Audit.issues_eq_nil_iff small, verifyGraph_eq_ok_iff]
  constructor
  · rintro ⟨found, audited, same⟩
    have nothing := congrArg Verifier.findings same
    rw [List.self_eq_append_right, List.map_eq_nil_iff] at nothing
    rw [audited, nothing]
  · intro audited
    refine ⟨[], audited, ?_⟩
    rw [List.map_nil, List.append_nil]

/-- A graph that a verifier accepts is well-formed and control can come out of it;
it is a proper control flow graph exactly if its ends are plain. -/
theorem accepted_proper_iff {v : Verifier} {g : Graph} (small : g.size ≤ Key.count 32)
    (accepted : v.verifyGraph g = .ok v) :
    WellFormed g ∧ g.Reaches .enter .exit ∧ (Proper g ↔ PlainEnds g) := by
  obtain ⟨wellFormed, reached⟩ := (verifyGraph_eq_self_iff small).mp accepted
  exact ⟨wellFormed, reached, Proper.plainEnds, wellFormed.proper small⟩

/-- A block that branches to the next one, which leaves. -/
def sampleBranch : Graph :=
  ⟨.ofList [{ role := .enter, succs := .ofList [Node.ofIndex 2] },
    { role := .exit, preds := .ofList [Node.ofIndex 3] },
    { role := .block, instructions := [⟨none, .branch "c" ⟨"end"⟩⟩],
      preds := .ofList [Node.enter], succs := .ofList [Node.ofIndex 3] },
    { role := .block, instructions := [⟨some ⟨"end"⟩, .plain "x"⟩, ⟨none, .ret none⟩],
      preds := .ofList [Node.ofIndex 2], succs := .ofList [Node.exit] }]⟩

theorem accepted_sampleBranch :
    sampleBranch.size ≤ Key.count 32 ∧ verifyGraph {} sampleBranch = .ok {} ∧
      Proper sampleBranch := by
  have small : sampleBranch.size ≤ Key.count 32 := by decide
  have wellFormed : WellFormed sampleBranch :=
    (Audit.localIssues_eq_nil_iff small rfl rfl).mp (by decide)
  have reached : sampleBranch.Reaches .enter .exit := by
    apply Graph.Reaches.step (b := Node.ofIndex 2) ⟨_, rfl, by decide⟩
    apply Graph.Reaches.step (b := Node.ofIndex 3) ⟨_, rfl, by decide⟩
    exact .step ⟨_, rfl, by decide⟩ (.refl _ _)
  have plain : PlainEnds sampleBranch := by
    have all : ∀ p ∈ sampleBranch.toList, p.2.isBlock = false →
        (p.1 = .enter ∨ p.1 = .exit) ∧ p.2.instructions = [] := by decide
    intro n v read
    exact all (n, v) ((Graph.mem_toList_iff small).mpr read)
  have accepted := (verifyGraph_eq_self_iff (v := {}) small).mpr ⟨wellFormed, reached⟩
  exact ⟨small, accepted, (accepted_proper_iff small accepted).2.2.mpr plain⟩

/-- A graph with a second node to enter, which nothing leads to. -/
def sampleSecondEnter : Graph :=
  ⟨.ofList [{ role := .enter, succs := .ofList [Node.exit] },
    { role := .exit, preds := .ofList [Node.enter] }, { role := .enter }]⟩

theorem sampleSecondEnter_accepted :
    sampleSecondEnter.size ≤ Key.count 32 ∧ verifyGraph {} sampleSecondEnter = .ok {} ∧
      ¬ Proper sampleSecondEnter := by
  have small : sampleSecondEnter.size ≤ Key.count 32 := by decide
  have wellFormed : WellFormed sampleSecondEnter :=
    (Audit.localIssues_eq_nil_iff small rfl rfl).mp (by decide)
  have reached : sampleSecondEnter.Reaches .enter .exit :=
    .step ⟨_, rfl, by decide⟩ (.refl _ _)
  refine ⟨small, (verifyGraph_eq_self_iff small).mpr ⟨wellFormed, reached⟩, ?_⟩
  intro proper
  exact absurd (proper.oneEnter (Node.ofIndex 2) _ rfl rfl) (by decide)

end FlowGraph.Verifier
