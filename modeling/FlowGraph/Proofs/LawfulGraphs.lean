import FlowGraph.Proofs.Acceptance

/-! The graphs that a verifier accepts, told by what holds of them. Nothing of the
audit stands in this description: a label is looked up by the lowest node that holds
it, whatever the role of that node, and a target is a label that some block branches
to. A verifier comes back without a new finding exactly from these graphs. -/
namespace FlowGraph

theorem Vertex.isBlock_iff {v : Vertex} : v.isBlock = true ↔ v.role = .block := beq_iff_eq

theorem Vertex.holds_iff {v : Vertex} {l : Label} :
    v.holds l = true ↔ ∃ i ∈ v.instructions, i.label = some l := by
  simp [Vertex.holds]

namespace Graph

variable {g : Graph} {l : Label}

/-- No node before this one holds an instruction with the label. -/
structure LowestHolder (g : Graph) (l : Label) (n : Node) : Prop where
  holds : ∃ v, g.get? n = some v ∧ ∃ i ∈ v.instructions, i.label = some l
  lowest : ∀ m w, g.get? m = some w → (∃ i ∈ w.instructions, i.label = some l) →
    n.index ≤ m.index

theorem LowestHolder.unique {n m : Node} (first : LowestHolder g l n)
    (second : LowestHolder g l m) : n = m := by
  obtain ⟨v, readFirst, heldFirst⟩ := first.holds
  obtain ⟨w, readSecond, heldSecond⟩ := second.holds
  apply Key.ext
  apply Nat.le_antisymm
  · exact first.lowest m w readSecond heldSecond
  · exact second.lowest n v readFirst heldFirst

theorem ascending_toList (small : g.size ≤ Key.count 32) :
    g.toList.Pairwise (·.1.index < ·.1.index) := by
  have keys := Table.ascending_keys small
  rw [← Table.map_fst_toList, List.pairwise_map] at keys
  exact keys

/-- A search that goes up the nodes stops at the lowest one. -/
theorem lowestHolder_of_blockOf? (small : g.size ≤ Key.count 32) {n : Node}
    (found : g.blockOf? l = some n) : LowestHolder g l n := by
  obtain ⟨⟨n, v⟩, first, rfl⟩ := Option.map_eq_some_iff.mp found
  obtain ⟨holds, before, after, split, none⟩ := List.find?_eq_some_iff_append.mp first
  have ascending := ascending_toList small
  rw [split] at ascending
  refine ⟨⟨v, ?_, Vertex.holds_iff.mp holds⟩, ?_⟩
  · rw [← mem_toList_iff small, split]
    exact List.mem_append_right before List.mem_cons_self
  · intro m w read held
    have member := (mem_toList_iff small).mpr read
    rw [split, List.mem_append, List.mem_cons] at member
    obtain early | same | late := member
    · have passed : (!w.holds l) = true := none (m, w) early
      rw [Vertex.holds_iff.mpr held] at passed
      cases passed
    · cases same
      exact Nat.le_refl _
    · have later := (List.pairwise_cons.mp (List.pairwise_append.mp ascending).2.1).1
      exact Nat.le_of_lt (later (m, w) late)

theorem blockOf?_eq_some_iff (small : g.size ≤ Key.count 32) {n : Node} :
    g.blockOf? l = some n ↔ LowestHolder g l n := by
  constructor
  · exact lowestHolder_of_blockOf? small
  · intro holder
    obtain ⟨v, read, held⟩ := holder.holds
    cases found : g.blockOf? l with
    | none =>
        rw [blockOf?, Option.map_eq_none_iff, List.find?_eq_none] at found
        have member := (mem_toList_iff small).mpr read
        exact absurd (Vertex.holds_iff.mpr held) (found (n, v) member)
    | some m => rw [(lowestHolder_of_blockOf? small found).unique holder]

end Graph

namespace Audit

variable {g : Graph} {v : Vertex}

/-- Some block branches to a label. -/
def BlockTarget (g : Graph) (l : Label) : Prop :=
  ∃ n v, g.get? n = some v ∧ v.role = .block ∧ ∃ i ∈ v.instructions, i.target? = some l

structure LawfulBlock (g : Graph) (v : Vertex) : Prop where
  filled : v.instructions ≠ []
  leads : ∃ m, m ∈ v.succs
  terminators : ∀ p i, v.instructions[p]? = some i → p + 1 < v.instructions.length →
    i.isTerminator = false
  targets : ∀ p i l, v.instructions[p]? = some i → 0 < p → i.label = some l → ¬ BlockTarget g l
  branches : ∀ i l, i ∈ v.instructions → i.target? = some l →
    ∃ m, g.LowestHolder l m ∧ m ∈ v.succs
  returns : ∀ i, i ∈ v.instructions → i.isReturn = true → Node.exit ∈ v.succs

/-- What an accepted graph is like. -/
structure Lawful (g : Graph) : Prop where
  two : 2 ≤ g.size
  enter : ∃ v, g.get? .enter = some v ∧ v.role = .enter ∧ v.preds = ∅
  exit : ∃ v, g.get? .exit = some v ∧ v.role = .exit ∧ v.succs = ∅
  converse : ∀ a b, (∃ v, g.get? a = some v ∧ b ∈ v.succs) ↔ ∃ w, g.get? b = some w ∧ a ∈ w.preds
  within : ∀ n v, g.get? n = some v → ∀ m, m ∈ v.succs ∨ m ∈ v.preds → g.contains m = true
  blocks : ∀ n v, g.get? n = some v → v.role = .block → LawfulBlock g v
  out : g.Reaches .enter .exit

theorem isTarget_iff (small : g.size ≤ Key.count 32) {label : Option Label} :
    isTarget (blockTargets g) label = true ↔ ∃ l, label = some l ∧ BlockTarget g l := by
  simp only [isTarget, Option.any_eq_true, List.contains_iff_mem, mem_blockTargets_iff small,
    Vertex.isBlock_iff, BlockTarget]

/-- Neighbours are joined throughout a block if only its last instruction ends it and
only its first one is a target. -/
theorem straight_iff (small : g.size ≤ Key.count 32) {is : List Instruction} :
    is.IsChain (Joined (blockTargets g)) ↔
      (∀ p i, is[p]? = some i → p + 1 < is.length → i.isTerminator = false) ∧
      ∀ p i l, is[p]? = some i → 0 < p → i.label = some l → ¬ BlockTarget g l := by
  rw [List.isChain_iff_getElem]
  constructor
  · intro joined
    refine ⟨?_, ?_⟩
    · intro p i read more
      obtain ⟨_, rfl⟩ := List.getElem?_eq_some_iff.mp read
      exact (joined p more).1
    · intro p i l read later carried target
      obtain ⟨inside, rfl⟩ := List.getElem?_eq_some_iff.mp read
      cases p with
      | zero => cases later
      | succ p =>
          have free := (joined p inside).2
          rw [(isTarget_iff small).mpr ⟨l, carried, target⟩] at free
          cases free
  · rintro ⟨terminators, targets⟩ p more
    refine ⟨terminators p _ (List.getElem?_eq_getElem _) more, ?_⟩
    rw [← Bool.not_eq_true, isTarget_iff small]
    rintro ⟨l, carried, target⟩
    exact targets (p + 1) _ l (List.getElem?_eq_getElem more) (Nat.succ_pos p) carried target

theorem soundBlock_iff_lawful (small : g.size ≤ Key.count 32) :
    SoundBlock g v ↔ LawfulBlock g v := by
  constructor
  · intro h
    obtain ⟨terminators, targets⟩ := (straight_iff small).mp h.straight
    refine ⟨h.filled, ?_, terminators, targets, ?_, ?_⟩
    · by_contra none
      exact h.leads (KeySet.eq_of_mem_iff fun m =>
        iff_of_false (fun succ => none ⟨m, succ⟩) (KeySet.not_mem_empty m))
    · intro i l held target
      obtain ⟨m, found, succ⟩ := (h.transfers i held).branch l target
      exact ⟨m, (Graph.blockOf?_eq_some_iff small).mp found, succ⟩
    · intro i held returns
      exact (h.transfers i held).ret returns
  · intro h
    refine ⟨h.filled, ?_, (straight_iff small).mpr ⟨h.terminators, h.targets⟩, ?_⟩
    · intro empty
      obtain ⟨m, succ⟩ := h.leads
      rw [empty] at succ
      exact KeySet.not_mem_empty m succ
    · intro i held
      refine ⟨?_, h.returns i held⟩
      intro l target
      obtain ⟨m, holder, succ⟩ := h.branches i l held target
      exact ⟨m, (Graph.blockOf?_eq_some_iff small).mpr holder, succ⟩

theorem lawful_iff_wellFormed (small : g.size ≤ Key.count 32) :
    Lawful g ↔ WellFormed g ∧ g.Reaches .enter .exit := by
  constructor
  · intro h
    refine ⟨⟨h.enter, h.exit, ?_, ?_, ?_⟩, h.out⟩
    · intro a v read b succ
      exact (h.converse a b).mp ⟨v, read, succ⟩
    · intro b w read a pred
      exact (h.converse a b).mpr ⟨w, read, pred⟩
    · intro n v read block
      exact (soundBlock_iff_lawful small).mpr (h.blocks n v read (Vertex.isBlock_iff.mp block))
  · rintro ⟨h, out⟩
    have inside : ∀ {n v}, g.get? n = some v → g.contains n = true :=
      fun read => Table.contains_iff.mpr (Graph.lt_size_of_get? read)
    refine ⟨?_, h.enter, h.exit, h.edge_iff, ?_, ?_, out⟩
    · obtain ⟨w, read, -⟩ := h.exit
      exact Graph.lt_size_of_get? read
    · rintro n v read m (succ | pred)
      · obtain ⟨w, there, -⟩ := h.succs n v read m succ
        exact inside there
      · obtain ⟨w, there, -⟩ := h.preds n v read m pred
        exact inside there
    · intro n v read block
      exact (soundBlock_iff_lawful small).mp (h.blocks n v read (Vertex.isBlock_iff.mpr block))

end Audit

namespace Verifier
open Audit (Lawful)

/-- A verifier comes back from a graph without a new finding exactly if the graph is
lawful. -/
theorem accepted_iff_lawful {before : Verifier} {g : Graph} (small : g.size ≤ Key.count 32) :
    (∃ after, before.verifyGraph g = .ok after ∧ after.findings = before.findings) ↔
      Lawful g := by
  rw [Audit.lawful_iff_wellFormed small, ← verifyGraph_eq_self_iff (v := before) small]
  constructor
  · rintro ⟨after, verified, same⟩
    obtain ⟨found, -, rfl⟩ := verifyGraph_eq_ok_iff.mp verified
    have unchanged := congrArg (Verifier.mk · before.method) same
    exact verified.trans (congrArg Except.ok unchanged)
  · intro accepted
    exact ⟨before, accepted, rfl⟩

/-- A block that jumps to a label which the exit node holds. -/
def sampleHolder : Graph :=
  ⟨.ofList [{ role := .enter, succs := .ofList [Node.ofIndex 2] },
    { role := .exit, instructions := [⟨some ⟨"end"⟩, .plain "x"⟩],
      preds := .ofList [Node.ofIndex 2] },
    { role := .block, instructions := [⟨none, .plain "y"⟩, ⟨none, .goto ⟨"end"⟩⟩],
      preds := .ofList [Node.enter], succs := .ofList [Node.exit] }]⟩

theorem accepted_sampleHolder :
    sampleHolder.size ≤ Key.count 32 ∧ verifyGraph {} sampleHolder = .ok {} ∧
      Lawful sampleHolder := by
  have found : sampleHolder.postOrder? = some [.exit, Node.ofIndex 2, .enter] :=
    Graph.postOrder?_of_after 6 (by decide)
  have audited : Audit.issues sampleHolder = .ok [] := by
    rw [Audit.issues_of_found rfl rfl found]
    decide
  have accepted : verifyGraph {} sampleHolder = .ok {} :=
    verifyGraph_eq_ok_iff.mpr ⟨[], audited, rfl⟩
  exact ⟨by decide, accepted, (accepted_iff_lawful (by decide)).mp ⟨{}, accepted, rfl⟩⟩

end Verifier
end FlowGraph
