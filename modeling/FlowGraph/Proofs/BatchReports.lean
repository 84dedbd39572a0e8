import FlowGraph.Proofs.Delivery
import Mathlib.Algebra.GroupWithZero.Nat

/-! What verification changes in the reports of a batch, and what the numbers over
reports add up to. A report rests on one body and its place alone. Verification takes
a built graph away where control cannot come out of it, and leaves all else as it
is. -/
namespace FlowGraph

variable {b : Body} {g : Graph}

/-- All that is wrong with a built graph that control cannot come out of. -/
def lostExit : List Finding := [⟨none, some "n1", "exit node is not reachable"⟩]

/-- A report without verification and the report on the same method with it. -/
inductive Filtered : Report → Report → Prop where
  | failed {key : MethodKey} {name : String} {failure : Failure} :
      Filtered ⟨key, name, .error failure⟩ ⟨key, name, .error failure⟩
  | passed {key : MethodKey} {name : String} {g : Graph} : g.Reaches .enter .exit →
      Filtered ⟨key, name, .ok g⟩ ⟨key, name, .ok g⟩
  | rejected {key : MethodKey} {name : String} {g : Graph} : ¬ g.Reaches .enter .exit →
      Filtered ⟨key, name, .ok g⟩ ⟨key, name, .error (.verification lostExit)⟩

namespace Batch

/-- The report at a place is made of the body at that place. -/
theorem getElem?_buildProgram (verify : Bool) (p : Program) (k : Nat) :
    (buildProgram verify p)[k]? =
      p.bodies[k]?.map (buildMethod verify (Key.ofIndex 32 k)) := by
  simp only [buildProgram, Program.toList, Table.toList, Program.bodies, List.getElem?_map,
    List.getElem?_zipIdx, Option.map_map, Nat.zero_add, Function.comp_def]

theorem graphOf_false (b : Body) : graphOf false b = b.graph.mapError .construction := by
  cases built : b.graph with
  | error fault => exact graphOf_of_fault built
  | ok g => exact graphOf_of_graph built

theorem verified_of_built (short : b.instructions.length ≤ Key.count 32 - 2)
    (built : b.graph = .ok g) :
    (g.Reaches .enter .exit ∧ verified g = .ok g) ∨
      (¬ g.Reaches .enter .exit ∧ verified g = .error (.verification lostExit)) := by
  have h := Construction.Built.of_build short built
  obtain ⟨out, clean⟩ | ⟨lost, single⟩ := h.wellFormed.issues_eq h.size_le
  · exact .inl ⟨out, verified_eq clean⟩
  · exact .inr ⟨lost, verified_eq single⟩

theorem filtered_buildMethod (short : b.instructions.length ≤ Key.count 32 - 2)
    (key : MethodKey) : Filtered (buildMethod false key b) (buildMethod true key b) := by
  rw [buildMethod, buildMethod]
  cases built : b.graph with
  | error fault =>
      rw [graphOf_of_fault built, graphOf_of_fault built]
      exact .failed
  | ok g =>
      rw [graphOf_of_graph built, graphOf_of_graph built, if_pos rfl, if_neg Bool.false_ne_true]
      obtain ⟨out, same⟩ | ⟨lost, rejected⟩ := verified_of_built short built
      · rw [same]
        exact .passed out
      · rw [rejected]
        exact .rejected lost

/-- Methods share nothing, so that reports are filtered one by one. -/
theorem filtered_buildProgram (p : Program)
    (short : ∀ b ∈ p.bodies, b.instructions.length ≤ Key.count 32 - 2) :
    List.Forall₂ Filtered (buildProgram false p) (buildProgram true p) := by
  rw [buildProgram, buildProgram, List.forall₂_map_left_iff, List.forall₂_map_right_iff,
    List.forall₂_same]
  rintro ⟨key, b⟩ listed
  obtain ⟨⟨b', place⟩, member, same⟩ := List.mem_map.mp listed
  cases same
  exact filtered_buildMethod (short b (List.fst_mem_of_mem_zipIdx member)) _

end Batch

namespace Statistics

/-- The graphs that reports hold. -/
def graphsOf (rs : List Report) : List Graph := rs.filterMap (·.result.toOption)

/-- What the numbers over reports are made of. -/
structure AddsUp (rs : List Report) (s : Statistics) : Prop where
  methods : s.methods = rs.length
  parts : s.methods = s.built + s.failed
  built : s.built = (graphsOf rs).length
  blocks : s.blocks = ((graphsOf rs).map (·.blocks.length)).sum
  edges : s.edges = ((graphsOf rs).map (·.edges.length)).sum

theorem addsUp_ofReports (rs : List Report) : AddsUp rs (ofReports rs) := by
  induction rs with
  | nil => exact ⟨rfl, rfl, rfl, rfl, rfl⟩
  | cons r rest ih =>
      obtain ⟨key, name, result⟩ := r
      obtain ⟨methods, parts, built, blocks, edges⟩ := ih
      cases result with
      | ok g =>
          have more : graphsOf (⟨key, name, .ok g⟩ :: rest) = g :: graphsOf rest := rfl
          constructor <;> simp only [ofReports, ofReport, add, more, List.length_cons,
            List.map_cons, List.sum_cons] <;> omega
      | error failure =>
          have same : graphsOf (⟨key, name, .error failure⟩ :: rest) = graphsOf rest := rfl
          constructor <;> simp only [ofReports, ofReport, add, same, List.length_cons] <;> omega

end Statistics

/-- A batch reports on each body in its place. Verification turns the reports on graphs
that control cannot come out of into failures and leaves all others. The numbers over
reports count these and add up the sizes of their graphs, and they may be taken over
parts of a list. -/
theorem verification_only_filters (p : Program)
    (short : ∀ b ∈ p.bodies, b.instructions.length ≤ Key.count 32 - 2) :
    (∀ k : Nat, (Batch.buildProgram false p)[k]? = p.bodies[k]?.map fun b =>
      ⟨Key.ofIndex 32 k, b.name, b.graph.mapError .construction⟩) ∧
    List.Forall₂ Filtered (Batch.buildProgram false p) (Batch.buildProgram true p) ∧
    (∀ (verify : Bool) (q : Program) (k : Nat), p.bodies[k]? = q.bodies[k]? →
      (Batch.buildProgram verify p)[k]? = (Batch.buildProgram verify q)[k]?) ∧
    (∀ rs, Statistics.AddsUp rs (Statistics.ofReports rs)) ∧
    ∀ rs qs, Statistics.ofReports (rs ++ qs) =
      (Statistics.ofReports rs).add (Statistics.ofReports qs) := by
  refine ⟨?_, Batch.filtered_buildProgram p short, ?_, Statistics.addsUp_ofReports,
    Statistics.ofReports_append⟩
  · intro k
    rw [Batch.getElem?_buildProgram]
    refine congrArg (Option.map · _) (funext fun b => ?_)
    rw [Batch.buildMethod, Batch.graphOf_false]
  · intro verify q k same
    rw [Batch.getElem?_buildProgram, Batch.getElem?_buildProgram, same]

theorem filtered_sampleBatch :
    (∀ b ∈ sampleBatch.bodies, b.instructions.length ≤ Key.count 32 - 2) ∧
    (∃ g, (Batch.buildProgram false sampleBatch)[1]? = some ⟨Key.ofIndex 32 1, "m", .ok g⟩) ∧
    (Batch.buildProgram true sampleBatch)[1]? =
      some ⟨Key.ofIndex 32 1, "m", .error (.verification lostExit)⟩ ∧
    Statistics.ofReports (Batch.buildProgram false sampleBatch) = ⟨3, 2, 1, 2, 4⟩ := by
  have short : ∀ b ∈ sampleBatch.bodies, b.instructions.length ≤ Key.count 32 - 2 := by decide
  have built : ∃ first g last,
      Batch.buildProgram false sampleBatch = [first, ⟨Key.ofIndex 32 1, "m", .ok g⟩, last] ∧
        g.postOrder? = some [Node.ofIndex 2, .enter] :=
    ⟨_, _, _, rfl, Graph.postOrder?_of_after 4 (by decide)⟩
  obtain ⟨first, g, last, reports, traversed⟩ := built
  obtain ⟨-, filtered, -⟩ := verification_only_filters sampleBatch short
  refine ⟨short, ⟨g, by rw [reports]; rfl⟩, ?_, by decide⟩
  rw [reports] at filtered
  generalize Batch.buildProgram true sampleBatch = verified at filtered ⊢
  obtain _ | ⟨-, _ | ⟨second, -⟩⟩ := filtered
  cases second with
  | passed out => exact absurd (((Graph.postOrder?_eq_some traversed).2.1 _).mpr out) (by decide)
  | rejected lost => rfl

end FlowGraph
