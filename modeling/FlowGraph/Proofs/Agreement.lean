import FlowGraph.Batch
import FlowGraph.Proofs.Totality
import FlowGraph.Proofs.Verdict

/-! Two ways to verify a program. A batch audits each graph with a verifier of its
own and reports method by method; one verifier that goes through the program
collects the same findings, under the names of their methods. It forgets the name
of a method when it is done with it, and it only ever adds to what it has found. -/
namespace FlowGraph

variable {v w : Verifier} {b : Body} {g : Graph}

/-- What a report comes to in a verifier, which knows the name of the method. -/
def Report.findings (r : Report) : List Finding :=
  match r.result with
  | .ok _ => []
  | .error (.construction fault) => [⟨some s!"method {r.name}", none, fault.message⟩]
  | .error (.verification found) => found.map ({ · with method := some s!"method {r.name}" })

namespace Verifier

/-- A call of a verifier that comes back, and what it makes of the verifier. -/
inductive Call : Verifier → Verifier → Prop where
  | graph {v w : Verifier} (g : Graph) : v.verifyGraph g = .ok w → Call v w
  | method {v w : Verifier} (b : Body) (built : Option Graph) :
      v.verifyMethod b = .ok (w, built) → Call v w
  | program {v w : Verifier} (p : Program) : v.verifyProgram p = .ok w → Call v w

/-- Any number of calls, one after another. -/
inductive Calls : Verifier → Verifier → Prop where
  | nil (v : Verifier) : Calls v v
  | cons {u v w : Verifier} : Call u v → Calls v w → Calls u w

/-- What calls keep: between them no method is named, and findings stay. -/
structure Kept (v w : Verifier) : Prop where
  unnamed : v.method = none → w.method = none
  grown : v.findings <+: w.findings

theorem Kept.refl (v : Verifier) : Kept v v := ⟨id, List.prefix_rfl⟩

theorem Kept.trans {u v w : Verifier} (first : Kept u v) (second : Kept v w) : Kept u w :=
  ⟨second.unnamed ∘ first.unnamed, first.grown.trans second.grown⟩

theorem findings_of_verifyGraph (verified : v.verifyGraph g = .ok w) :
    ∃ found, w.findings = v.findings ++ found ∧ ∀ f ∈ found, f.method = v.method := by
  obtain ⟨issues, -, rfl⟩ := verifyGraph_eq_ok_iff.mp verified
  refine ⟨_, rfl, ?_⟩
  intro f member
  obtain ⟨issue, -, rfl⟩ := List.mem_map.mp member
  rfl

theorem verifyGraph_kept (verified : v.verifyGraph g = .ok w) : Kept v w := by
  obtain ⟨found, -, rfl⟩ := verifyGraph_eq_ok_iff.mp verified
  exact ⟨id, List.prefix_append _ _⟩

theorem verifyMethod_of_fault {fault : Construction.Fault} (failed : b.graph = .error fault)
    (v : Verifier) : v.verifyMethod b = .ok
      ({ findings := v.findings ++ [⟨some s!"method {b.name}", none, fault.message⟩],
         method := none }, none) := by
  rw [verifyMethod, failed]

theorem verifyMethod_of_graph (built : b.graph = .ok g) (v : Verifier) :
    v.verifyMethod b = (Audit.issues g).map fun found =>
      ({ findings := v.findings ++ found.map (Finding.ofIssue (some s!"method {b.name}")),
         method := none }, some g) := by
  rw [verifyMethod, built]
  simp only [verifyGraph]
  cases Audit.issues g with
  | error missing => rfl
  | ok found => rfl

/-- A verifier forgets the name of a method when it is done with it. -/
theorem verifyMethod_kept {built : Option Graph} (verified : v.verifyMethod b = .ok (w, built)) :
    w.method = none ∧ Kept v w := by
  cases graph : b.graph with
  | error fault =>
      rw [verifyMethod_of_fault graph] at verified
      cases verified
      exact ⟨rfl, fun _ => rfl, List.prefix_append _ _⟩
  | ok g =>
      rw [verifyMethod_of_graph graph] at verified
      cases audited : Audit.issues g with
      | error missing =>
          rw [audited] at verified
          cases verified
      | ok found =>
          rw [audited] at verified
          cases verified
          exact ⟨rfl, fun _ => rfl, List.prefix_append _ _⟩

theorem verifyBodies_kept {bodies : List Body} (verified : v.verifyBodies bodies = .ok w) :
    Kept v w := by
  induction bodies generalizing v with
  | nil =>
      cases verified
      exact .refl _
  | cons b rest ih =>
      rw [verifyBodies] at verified
      split at verified
      · next first => exact (verifyMethod_kept first).2.trans (ih verified)
      · cases verified

theorem Call.kept (call : Call v w) : Kept v w := by
  cases call with
  | graph g verified => exact verifyGraph_kept verified
  | method b built verified => exact (verifyMethod_kept verified).2
  | program p verified => exact verifyBodies_kept verified

theorem Calls.kept (calls : Calls v w) : Kept v w := by
  induction calls with
  | nil v => exact .refl v
  | cons call _ ih => exact call.kept.trans ih

end Verifier

namespace Batch

theorem exists_issues (short : b.instructions.length ≤ Key.count 32 - 2)
    (built : b.graph = .ok g) : ∃ found, Audit.issues g = .ok found := by
  have h := Construction.Built.of_build short built
  exact (Audit.exists_issues_iff h.two_le_size).mpr h.wellFormed.closed

theorem verified_eq {found : List Issue} (audited : Audit.issues g = .ok found) :
    verified g = if found = [] then .ok g
      else .error (.verification (found.map (Finding.ofIssue none))) := by
  have fresh : Verifier.verifyGraph {} g = .ok { findings := found.map (Finding.ofIssue none) } :=
    Verifier.verifyGraph_eq_ok_iff.mpr ⟨found, audited, rfl⟩
  rw [verified, fresh]
  cases found with
  | nil => rfl
  | cons issue rest => rfl

theorem findings_of_fault {fault : Construction.Fault} (failed : b.graph = .error fault)
    (key : MethodKey) : (buildMethod true key b).findings =
      [⟨some s!"method {b.name}", none, fault.message⟩] := by
  rw [Report.findings, buildMethod, graphOf, failed]

theorem findings_of_graph {found : List Issue} (built : b.graph = .ok g)
    (audited : Audit.issues g = .ok found) (key : MethodKey) :
    (buildMethod true key b).findings =
      found.map (Finding.ofIssue (some s!"method {b.name}")) := by
  simp only [Report.findings, buildMethod, graphOf, built, if_true, verified_eq audited]
  cases found with
  | nil => rfl
  | cons issue rest =>
      simp only [reduceCtorEq, if_false, List.map_map]
      rfl

/-- The verifier behind a report knows of no method. -/
theorem method_of_verification {found : List Finding}
    (rejected : graphOf true b = .error (.verification found)) : ∀ f ∈ found, f.method = none := by
  cases built : b.graph with
  | error fault =>
      rw [graphOf, built] at rejected
      cases rejected
  | ok g =>
      rw [graphOf, built] at rejected
      simp only [if_true] at rejected
      cases audited : Audit.issues g with
      | error missing =>
          rw [verified, Verifier.verifyGraph, audited] at rejected
          cases rejected
      | ok issues =>
          rw [verified_eq audited] at rejected
          split at rejected
          · cases rejected
          · cases rejected
            intro f member
            obtain ⟨issue, -, rfl⟩ := List.mem_map.mp member
            rfl

theorem graphOf_ne_missingKey (short : b.instructions.length ≤ Key.count 32 - 2)
    (cause : MissingKey) : graphOf true b ≠ .error (.construction (.missingKey cause)) := by
  intro failed
  cases built : b.graph with
  | error fault =>
      rw [graphOf, built] at failed
      cases failed
      exact Construction.build_ne_missingKey short cause built
  | ok g =>
      obtain ⟨found, audited⟩ := exists_issues short built
      rw [graphOf, built] at failed
      simp only [if_true, verified_eq audited] at failed
      split at failed
      · cases failed
      · cases failed

end Batch

/-- One method, in a batch and by a verifier. -/
theorem Verifier.verifyMethod_eq (short : b.instructions.length ≤ Key.count 32 - 2)
    (v : Verifier) (key : MethodKey) :
    ∃ built, v.verifyMethod b = .ok
      ({ findings := v.findings ++ (Batch.buildMethod true key b).findings, method := none },
        built) := by
  cases built : b.graph with
  | error fault =>
      rw [verifyMethod_of_fault built, Batch.findings_of_fault built]
      exact ⟨none, rfl⟩
  | ok g =>
      obtain ⟨found, audited⟩ := Batch.exists_issues short built
      rw [verifyMethod_of_graph built, Batch.findings_of_graph built audited, audited]
      exact ⟨some g, rfl⟩

/-- Methods one after another, of which the first has the place `start`. -/
theorem Verifier.verifyBodies_eq {bodies : List Body}
    (short : ∀ b ∈ bodies, b.instructions.length ≤ Key.count 32 - 2) (start : Nat)
    (unnamed : v.method = none) :
    v.verifyBodies bodies = .ok
      { findings := v.findings ++ (bodies.zipIdx start).flatMap fun p =>
          (Batch.buildMethod true (Key.ofIndex 32 p.2) p.1).findings,
        method := none } := by
  induction bodies generalizing v start with
  | nil =>
      rw [verifyBodies, List.zipIdx_nil, List.flatMap_nil, List.append_nil, ← unnamed]
  | cons b rest ih =>
      obtain ⟨built, first⟩ := verifyMethod_eq (short b List.mem_cons_self) v (Key.ofIndex 32 start)
      rw [verifyBodies, first]
      simp only
      rw [ih (fun b member => short b (List.mem_cons_of_mem _ member)) (start + 1) rfl,
        List.zipIdx_cons, List.flatMap_cons, List.append_assoc]

/-- A verifier that goes through a program finds what the reports of a batch say,
in their order. The names of methods stand in these findings and in no later ones
about graphs alone, and no call takes back or changes a finding. -/
theorem verification_paths_agree (p : Program)
    (short : ∀ b ∈ p.bodies, b.instructions.length ≤ Key.count 32 - 2) :
    Verifier.verifyProgram {} p = .ok
      { findings := (Batch.buildProgram true p).flatMap Report.findings, method := none } ∧
    (∀ r ∈ Batch.buildProgram true p,
      (∀ cause, r.result ≠ .error (.construction (.missingKey cause))) ∧
      ∀ found, r.result = .error (.verification found) → ∀ f ∈ found, f.method = none) ∧
    ∀ v, Verifier.Calls {} v →
      (∀ g w, v.verifyGraph g = .ok w →
        ∃ found, w.findings = v.findings ++ found ∧ ∀ f ∈ found, f.method = none) ∧
      ∀ w, Verifier.Calls v w → v.findings <+: w.findings := by
  refine ⟨?_, ?_, ?_⟩
  · rw [Verifier.verifyProgram, Verifier.verifyBodies_eq short 0 rfl, Batch.buildProgram,
      Program.toList, Table.toList, List.map_map, List.flatMap_map]
    rfl
  · intro r member
    obtain ⟨⟨key, b⟩, listed, rfl⟩ := List.mem_map.mp member
    refine ⟨Batch.graphOf_ne_missingKey (short b ?_), fun found => Batch.method_of_verification⟩
    obtain ⟨⟨b', place⟩, member, same⟩ := List.mem_map.mp listed
    cases same
    exact List.fst_mem_of_mem_zipIdx member
  · intro v history
    refine ⟨?_, fun w calls => calls.kept.grown⟩
    intro g w verified
    rw [← history.kept.unnamed rfl]
    exact Verifier.findings_of_verifyGraph verified

/-- Two methods of one name, an empty one and one that control never leaves, and
one that branches to a label that is not there. -/
def sampleBatch : Program :=
  .ofList [{ name := "m" }, { name := "m", instructions := Construction.sampleTrap },
    { name := "u", instructions := [⟨none, .goto ⟨"x"⟩⟩] }]

theorem paths_agree_on_sampleBatch :
    (∀ b ∈ sampleBatch.bodies, b.instructions.length ≤ Key.count 32 - 2) ∧
    Verifier.verifyProgram {} sampleBatch = .ok
      { findings := [⟨some "method m", some "n1", "exit node is not reachable"⟩,
          ⟨some "method u", none, "branch to undefined label `x`"⟩], method := none } := by
  have short : ∀ b ∈ sampleBatch.bodies, b.instructions.length ≤ Key.count 32 - 2 := by decide
  have empty : ∃ g, Construction.build [] = .ok g ∧ Audit.issues g = .ok [] := by
    refine ⟨_, rfl, (Audit.issues_eq_nil_iff (by decide)).mpr ⟨?_, ?_⟩⟩
    · have h : Construction.Built [] _ := .of_build (by decide) rfl
      exact h.wellFormed
    · exact .step ⟨_, rfl, by decide⟩ (.refl _ _)
  have trap : ∃ g, Construction.build Construction.sampleTrap = .ok g ∧
      g.postOrder? = some [Node.ofIndex 2, .enter] :=
    ⟨_, rfl, Graph.postOrder?_of_after 4 (by decide)⟩
  obtain ⟨g, built, audited⟩ := empty
  obtain ⟨g', built', traversed⟩ := trap
  have audited' : Audit.issues g' = .ok [⟨.exit, .exitUnreachable⟩] := by
    have h := Construction.Built.of_build (by decide) built'
    obtain ⟨reached, -⟩ | ⟨-, audited'⟩ := h.wellFormed.issues_eq h.size_le
    · exact absurd (((Graph.postOrder?_eq_some traversed).2.1 _).mpr reached) (by decide)
    · exact audited'
  have first := Batch.findings_of_graph (b := { name := "m" }) built audited (Key.ofIndex 32 0)
  have second := Batch.findings_of_graph (b := { name := "m", instructions := Construction.sampleTrap })
    built' audited' (Key.ofIndex 32 1)
  have reports : (Batch.buildProgram true sampleBatch).flatMap Report.findings =
      [⟨some "method m", some "n1", "exit node is not reachable"⟩,
        ⟨some "method u", none, "branch to undefined label `x`"⟩] := by
    show _ ++ (_ ++ (_ ++ [])) = _
    rw [first, second]
    rfl
  refine ⟨short, ?_⟩
  rw [(verification_paths_agree sampleBatch short).1, reports]

end FlowGraph
