import FlowGraph.Proofs.Edges
import FlowGraph.Proofs.Rules
import FlowGraph.Proofs.Segments

/-! The verdict on built graphs. Construction keeps all rules of well-formed
graphs, so an audit of what it makes can find one thing only: a list whose
control never comes to its end. -/
namespace FlowGraph.Construction
open Audit (WellFormed SoundBlock Transfers Joined blockTargets isTarget)

variable {is : List Instruction} {g : Graph}

namespace Built

theorem instructions_mem_segments (h : Built is g) {n : Node} (block : n ∈ g.blocks) :
    (g.vertexOf n).instructions ∈ segments is := by
  obtain ⟨order, -, members, pieces⟩ := h.exists_order
  rw [h.instructions_vertexOf, ← pieces]
  exact List.mem_map_of_mem ((members n).mpr block)

/-- Branches that are found in blocks are branches of the list. -/
theorem mem_references_of_blockTargets (h : Built is g) {l : Label} (member : l ∈ blockTargets g) :
    l ∈ references is := by
  obtain ⟨n, v, read, -, i, held, target⟩ := (Audit.mem_blockTargets_iff h.size_le).mp member
  rw [← Graph.vertexOf_eq read, h.mem_instructions_iff] at held
  obtain ⟨p, hp, -⟩ := held
  exact mem_references.mpr ⟨p, i, hp, target⟩

theorem isTarget_of_not_targeted (h : Built is g) {i : Instruction}
    (free : isTargeted is i = false) : isTarget (blockTargets g) i.label = false := by
  cases carried : i.label with
  | none => rfl
  | some l =>
      rw [isTargeted, carried, Option.any_some] at free
      rw [isTarget, Option.any_some, ← Bool.not_eq_true, List.contains_iff_mem]
      intro member
      rw [List.contains_iff_mem.mpr (h.mem_references_of_blockTargets member)] at free
      cases free

theorem transfers (h : Built is g) {n : Node} {i : Instruction}
    (held : i ∈ (g.vertexOf n).instructions) : Transfers g (g.vertexOf n) i := by
  obtain ⟨p, hp, rfl⟩ := h.mem_instructions_iff.mp held
  constructor
  · intro l target
    obtain ⟨q, j, hq, carried⟩ := h.exists_target hp target
    exact ⟨blockAt is q, h.blockOf?_eq hq carried,
      h.mem_succs_iff_flow.mpr (.jump hp target hq carried)⟩
  · intro returns
    exact h.mem_succs_iff_flow.mpr (.leave hp returns)

theorem soundBlock (h : Built is g) {n : Node} (block : n ∈ g.blocks) :
    SoundBlock g (g.vertexOf n) := by
  have segment := h.instructions_mem_segments block
  refine ⟨?_, ?_, ?_, fun i held => h.transfers held⟩
  · intro empty
    exact nil_not_mem_cutBefore _ 0 is (empty ▸ segment)
  · obtain ⟨p, inside, -, rfl⟩ := h.mem_blocks_iff_starts.mp block
    intro empty
    have leads := (h.length_succs inside).1
    rw [empty] at leads
    exact absurd leads (by decide)
  · apply (isChain_segments segment).imp
    intro a b joined
    exact ⟨joined.1, h.isTarget_of_not_targeted joined.2⟩

/-- Construction keeps the rules. -/
theorem wellFormed (h : Built is g) : WellFormed g := by
  have two := h.two_le_size
  have there : ∀ {n : Node}, n.index < g.size → g.get? n = some (g.vertexOf n) :=
    Graph.get?_eq_some_vertexOf
  refine ⟨⟨_, there (Nat.lt_of_lt_of_le (by decide) two), ?_, ?_⟩,
    ⟨_, there (Nat.lt_of_lt_of_le (by decide) two), ?_, ?_⟩, ?_, ?_, ?_⟩
  · rw [h.role_vertexOf, if_pos rfl]
  · apply KeySet.eq_of_mem_iff
    intro a
    rw [h.mem_preds_iff_flow]
    exact iff_of_false (fun flow => (h.flow_ends flow).2.2 rfl) (by simp)
  · rw [h.role_vertexOf, if_neg (by decide), if_pos rfl]
  · apply KeySet.eq_of_mem_iff
    intro b
    rw [h.mem_succs_iff_flow]
    exact iff_of_false (fun flow => (h.flow_ends flow).2.1 rfl) (by simp)
  · intro a v read b succ
    rw [← Graph.vertexOf_eq read, h.mem_succs_iff_flow] at succ
    exact ⟨_, there (h.flow_ends succ).1.2, h.mem_preds_iff_flow.mpr succ⟩
  · intro b w read a pred
    rw [← Graph.vertexOf_eq read, h.mem_preds_iff_flow] at pred
    exact ⟨_, there (h.flow_ends pred).1.1, h.mem_succs_iff_flow.mpr pred⟩
  · intro n v read block
    rw [← Graph.vertexOf_eq read]
    exact h.soundBlock ((Graph.mem_blocks_iff h.size_le).mpr ⟨v, read, block⟩)

end Built

/-- A fresh verifier finds nothing in a built graph if control can come out of
it, and otherwise finds just that. -/
theorem verdict_exact (short : is.length ≤ Key.count 32 - 2) (built : build is = .ok g) :
    (g.Reaches .enter .exit ∧ Verifier.verifyGraph {} g = .ok { findings := [], method := none }) ∨
      (¬ g.Reaches .enter .exit ∧ Verifier.verifyGraph {} g = .ok
        { findings := [⟨none, some "n1", "exit node is not reachable"⟩], method := none }) := by
  have h := Built.of_build short built
  obtain ⟨reached, clean⟩ | ⟨lost, single⟩ := h.wellFormed.issues_eq h.size_le
  · refine .inl ⟨reached, ?_⟩
    rw [Verifier.verifyGraph, clean]
    rfl
  · refine .inr ⟨lost, ?_⟩
    rw [Verifier.verifyGraph, single]
    rfl

/-- A loop that control never leaves, and code behind it. -/
def sampleTrap : List Instruction :=
  [⟨some ⟨"head"⟩, .plain "work"⟩, ⟨none, .goto ⟨"head"⟩⟩, ⟨none, .plain "dead"⟩]

theorem verdict_of_samples :
    (sampleLoop.length ≤ Key.count 32 - 2 ∧ ∃ g, build sampleLoop = .ok g ∧
      Verifier.verifyGraph {} g = .ok { findings := [], method := none }) ∧
    sampleTrap.length ≤ Key.count 32 - 2 ∧ ∃ g, build sampleTrap = .ok g ∧
      Verifier.verifyGraph {} g = .ok
        { findings := [⟨none, some "n1", "exit node is not reachable"⟩], method := none } := by
  have out : ∃ g, build sampleLoop = .ok g ∧ g.Reaches .enter .exit := by
    refine ⟨_, rfl, ?_⟩
    apply Graph.Reaches.step (b := Node.ofIndex 3) ⟨_, rfl, by decide⟩
    apply Graph.Reaches.step (b := Node.ofIndex 2) ⟨_, rfl, by decide⟩
    exact .step ⟨_, rfl, by decide⟩ (.refl _ _)
  have trapped : ∃ g, build sampleTrap = .ok g ∧ g.postOrder? = some [Node.ofIndex 2, .enter] := by
    refine ⟨_, rfl, Graph.postOrder?_of_turns (?_ : Graph.Search.Turns _ _
      ⟨[Node.ofIndex 2, .enter], [.enter, Node.ofIndex 2], []⟩ 4) rfl⟩
    refine .more (.discover (by decide) rfl) ?_
    refine .more (.discover (by decide) rfl) ?_
    refine .more (.finish (by decide)) ?_
    exact .more (.finish (by decide)) (.none _)
  refine ⟨⟨by decide, ?_⟩, by decide, ?_⟩
  · obtain ⟨g, built, reached⟩ := out
    obtain ⟨-, verdict⟩ | ⟨lost, -⟩ := verdict_exact (by decide) built
    · exact ⟨g, built, verdict⟩
    · exact absurd reached lost
  · obtain ⟨g, built, found⟩ := trapped
    obtain ⟨reached, -⟩ | ⟨-, verdict⟩ := verdict_exact (by decide) built
    · exact absurd (((Graph.postOrder?_eq_some found).2.1 _).mpr reached) (by decide)
    · exact ⟨g, built, verdict⟩

end FlowGraph.Construction
