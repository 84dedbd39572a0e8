import FlowGraph.Proofs.Rules

/-! Edges that are recorded at one end only, because the other end does not know
of them or is not in the graph. An audit reports exactly these, each at the node
that holds it. But the traversal at the end of an audit looks up every node that
it meets, and so an audit gets that far only if no walk from the enter node
leaves the graph. -/
namespace FlowGraph

/-- Whether a violation is about an edge that is recorded at one end only. -/
def Violation.isOneSided : Violation → Bool
  | .succNotRecorded _ | .predNotRecorded _ => true
  | _ => false

namespace Audit

variable {g : Graph} {n : Node} {v : Vertex} {x : Issue}

theorem mem_issueIf {broken : Bool} {violation : Violation} :
    x ∈ issueIf broken n violation ↔ broken = true ∧ x = ⟨n, violation⟩ := by
  cases broken <;> simp [issueIf]

theorem isOneSided_of_mem_endIssues {enter exit : Vertex} (listed : x ∈ endIssues enter exit) :
    x.violation.isOneSided = false := by
  simp only [endIssues, List.mem_append, mem_issueIf] at listed
  obtain ((⟨-, rfl⟩ | ⟨-, rfl⟩) | ⟨-, rfl⟩) | ⟨-, rfl⟩ := listed <;> rfl

theorem isOneSided_of_mem_transferIssues {i : Instruction} (listed : x ∈ transferIssues g n v i) :
    x.violation.isOneSided = false := by
  obtain ⟨label, op⟩ := i
  cases op with
  | plain text => cases listed
  | ret value =>
      obtain ⟨-, rfl⟩ := mem_issueIf.mp listed
      rfl
  | goto l | branch condition l =>
      simp only [transferIssues] at listed
      split at listed
      · obtain ⟨-, rfl⟩ := mem_issueIf.mp listed
        rfl
      · obtain rfl := List.mem_singleton.mp listed
        rfl

theorem isOneSided_of_mem_runIssues {targets : List Label} {first : Bool} {is : List Instruction}
    (listed : x ∈ runIssues g targets n v first is) : x.violation.isOneSided = false := by
  induction is generalizing first with
  | nil => cases listed
  | cons i rest ih =>
      simp only [runIssues, instructionIssues, List.mem_append, mem_issueIf] at listed
      obtain ((⟨-, rfl⟩ | ⟨-, rfl⟩) | transfer) | later := listed
      · rfl
      · rfl
      · exact isOneSided_of_mem_transferIssues transfer
      · exact ih later

theorem isOneSided_of_mem_blockIssues {targets : List Label}
    (listed : x ∈ blockIssues g targets n v) : x.violation.isOneSided = false := by
  simp only [blockIssues, List.mem_append, mem_issueIf] at listed
  obtain (⟨-, rfl⟩ | ⟨-, rfl⟩) | inside := listed
  · rfl
  · rfl
  · exact isOneSided_of_mem_runIssues inside

/-- Of all parts of an audit, only the one that looks at edges reports them. -/
theorem mem_issues_iff_mem_edgeIssues {found : List Issue} (audited : issues g = .ok found)
    (oneSided : x.violation.isOneSided = true) :
    x ∈ found ↔ ∃ n v, (n, v) ∈ g.toList ∧ x ∈ edgeIssues g n v := by
  obtain ⟨enter, exit, order, -, -, -, rfl⟩ := exists_of_issues audited
  have notElsewhere : ∀ {P : Prop}, x.violation.isOneSided = false → P := by
    intro P other
    rw [oneSided] at other
    cases other
  simp only [localIssues, List.mem_append, List.mem_flatMap, Prod.exists]
  constructor
  · rintro (((ends | edges) | ⟨n, v, -, block⟩) | lost)
    · exact notElsewhere (isOneSided_of_mem_endIssues ends)
    · exact edges
    · exact notElsewhere (isOneSided_of_mem_blockIssues block)
    · obtain ⟨-, rfl⟩ := mem_issueIf.mp lost
      cases oneSided
  · intro edges
    exact .inl (.inl (.inr edges))

theorem mem_edgeIssues :
    x ∈ edgeIssues g n v ↔
      (∃ m ∈ v.succs, (¬ ∃ w, g.get? m = some w ∧ n ∈ w.preds) ∧ x = ⟨n, .succNotRecorded m⟩) ∨
      ∃ m ∈ v.preds, (¬ ∃ w, g.get? m = some w ∧ n ∈ w.succs) ∧ x = ⟨n, .predNotRecorded m⟩ := by
  simp only [edgeIssues, recordsPred, recordsSucc, List.mem_append, List.mem_flatMap, mem_issueIf,
    KeySet.mem_toList, Bool.not_eq_true', ← Bool.not_eq_true, Option.any_eq_true,
    decide_eq_true_eq]

end Audit

namespace Verifier

/-- A verifier comes back from a graph exactly if no walk from the enter node
leaves the graph. Then it has recorded every edge whose other end is missing or
does not record it, at the node that holds the edge, and no other edge. -/
theorem one_sided_edges_reported {g : Graph} (two : 2 ≤ g.size) (small : g.size ≤ Key.count 32)
    (before : Verifier) :
    ((∃ after, before.verifyGraph g = .ok after) ↔ g.Closed) ∧
    ∀ after, before.verifyGraph g = .ok after → ∃ found : List Issue,
      after.findings = before.findings ++ found.map (Finding.ofIssue before.method) ∧
      (∀ n m, ⟨n, .succNotRecorded m⟩ ∈ found ↔
        ∃ v, g.get? n = some v ∧ m ∈ v.succs ∧ ¬ ∃ w, g.get? m = some w ∧ n ∈ w.preds) ∧
      ∀ n m, ⟨n, .predNotRecorded m⟩ ∈ found ↔
        ∃ v, g.get? n = some v ∧ m ∈ v.preds ∧ ¬ ∃ w, g.get? m = some w ∧ n ∈ w.succs := by
  constructor
  · rw [← Audit.exists_issues_iff two]
    constructor
    · rintro ⟨after, verified⟩
      obtain ⟨found, audited, -⟩ := verifyGraph_eq_ok_iff.mp verified
      exact ⟨found, audited⟩
    · rintro ⟨found, audited⟩
      exact ⟨_, verifyGraph_eq_ok_iff.mpr ⟨found, audited, rfl⟩⟩
  · intro after verified
    obtain ⟨found, audited, rfl⟩ := verifyGraph_eq_ok_iff.mp verified
    refine ⟨found, rfl, ?_, ?_⟩
    · intro n m
      rw [Audit.mem_issues_iff_mem_edgeIssues audited rfl]
      simp only [Audit.mem_edgeIssues, Graph.mem_toList_iff small]
      constructor
      · rintro ⟨n, v, read, ⟨m, succ, missing, same⟩ | ⟨m, -, -, same⟩⟩
        · cases same
          exact ⟨v, read, succ, missing⟩
        · cases same
      · rintro ⟨v, read, succ, missing⟩
        exact ⟨n, v, read, .inl ⟨m, succ, missing, rfl⟩⟩
    · intro n m
      rw [Audit.mem_issues_iff_mem_edgeIssues audited rfl]
      simp only [Audit.mem_edgeIssues, Graph.mem_toList_iff small]
      constructor
      · rintro ⟨n, v, read, ⟨m, -, -, same⟩ | ⟨m, pred, missing, same⟩⟩
        · cases same
        · cases same
          exact ⟨v, read, pred, missing⟩
      · rintro ⟨v, read, pred, missing⟩
        exact ⟨n, v, read, .inr ⟨m, pred, missing, rfl⟩⟩

theorem one_sided_edge_of_sampleCycle :
    2 ≤ Graph.sampleCycle.size ∧ Graph.sampleCycle.size ≤ Key.count 32 ∧ ∃ after,
      verifyGraph {} Graph.sampleCycle = .ok after ∧
      ⟨none, some "n4", "edge to n9 not recorded as predecessor"⟩ ∈ after.findings := by
  have found : Graph.sampleCycle.postOrder? = some [Node.ofIndex 3, Node.ofIndex 2, .enter] :=
    Graph.postOrder?_of_after 6 (by decide)
  have closed := (Graph.postOrder?_eq_some found).2.2
  obtain ⟨returns, reports⟩ := one_sided_edges_reported (g := Graph.sampleCycle) (by decide)
    (by decide) {}
  obtain ⟨after, verified⟩ := returns.mpr closed
  obtain ⟨found, same, succs, -⟩ := reports after verified
  refine ⟨by decide, by decide, after, verified, ?_⟩
  have listed := (succs (Node.ofIndex 4) (Node.ofIndex 9)).mpr ⟨_, rfl, by decide, by
    rintro ⟨w, read, -⟩
    cases read⟩
  rw [same]
  exact List.mem_map.mpr ⟨_, listed, rfl⟩

/-- An edge that leads out of the graph right behind the enter node. -/
def sampleDangling : Graph :=
  ⟨.ofList [{ role := .enter, succs := .ofList [Node.ofIndex 9] }, { role := .exit }]⟩

theorem sampleDangling_not_reported :
    2 ≤ sampleDangling.size ∧ sampleDangling.size ≤ Key.count 32 ∧
      verifyGraph {} sampleDangling = .error .missingKey := by
  have lost : sampleDangling.postOrder? = none := by
    cases found : sampleDangling.postOrder? with
    | none => rfl
    | some order =>
        have inside := (Graph.postOrder?_eq_some found).2.2 (Node.ofIndex 9)
          (.step ⟨_, rfl, by decide⟩ (.refl _ _))
        exact absurd inside (by decide)
  refine ⟨by decide, by decide, ?_⟩
  rw [verifyGraph, Audit.issues, lost]
  rfl

end Verifier
end FlowGraph
