import FlowGraph.Proofs.Edges

/-! A built graph means what its instruction list means. Runs of the machine on
the list and walks through the graph are followed step by step: inside a block
the machine has no choice, and at the end of one its choices are the edges. -/
namespace FlowGraph.Machine

/-- The positions that a point stands at. -/
def Point.here : Point → List Nat
  | .inside p => [p]
  | .done => []

/-- The machine that may also leave after the last instruction, whatever it is. -/
inductive OpenStep (is : List Instruction) : Nat → Point → Prop where
  | step {p : Nat} {point : Point} : Step is p point → OpenStep is p point
  | last {p : Nat} : p + 1 = is.length → OpenStep is p .done

/-- The instructions at some positions. -/
def spell (is : List Instruction) (positions : List Nat) : List Instruction :=
  positions.filterMap (is[·]?)

theorem spell_append (is : List Instruction) (ps qs : List Nat) :
    spell is (ps ++ qs) = spell is ps ++ spell is qs := List.filterMap_append

theorem spell_singleton {is : List Instruction} {p : Nat} {i : Instruction}
    (hp : is[p]? = some i) : spell is [p] = [i] := by rw [spell, List.filterMap_cons_some hp]; rfl

theorem Run.append {step : Nat → Point → Prop} {a b c : Point} {ps qs : List Nat}
    (first : Run step a b ps) (second : Run step b c qs) : Run step a c (ps ++ qs) := by
  induction first with
  | stay => exact second
  | step head _ ih => exact .step head (ih second)

theorem Run.single {step : Nat → Point → Prop} {p : Nat} {next : Point} (h : step p next) :
    Run step (.inside p) next [p] := .step h (.stay next)

theorem OpenStep.inside {is : List Instruction} {p : Nat} {point : Point}
    (h : OpenStep is p point) : p < is.length := by
  cases h with
  | step h =>
      cases h with
      | next hp _ => exact (List.getElem?_eq_some_iff.mp hp).1
      | jump hp _ _ => exact (List.getElem?_eq_some_iff.mp hp).1
      | leave hp _ => exact (List.getElem?_eq_some_iff.mp hp).1
  | last h => omega

end FlowGraph.Machine

namespace FlowGraph.Graph

theorem spelled_append (g : Graph) (first second : List Node) :
    g.spelled (first ++ second) = g.spelled first ++ g.spelled second := List.flatMap_append

theorem Walk.snoc {g : Graph} {a b c : Node} {passed : List Node} (walk : g.Walk a b passed)
    (edge : g.Edge b c) : g.Walk a c (passed ++ [c]) :=
  walk.append (.step edge (.stay c))

end FlowGraph.Graph

namespace FlowGraph.Construction
open Machine

variable {is : List Instruction} {g : Graph}

/-- The node that a walk stands at when the machine stands at a point. -/
def nodeOf (is : List Instruction) : Point → Node
  | .inside p => blockAt is p
  | .done => .exit

/-- A point at which the machine comes into a block, or has left. -/
def AtStart (is : List Instruction) : Point → Prop
  | .inside p => p < is.length ∧ startsBlock is p = true
  | .done => True

theorem AtStart.inside {point : Point} (starts : AtStart is point) :
    ∀ p ∈ point.here, p < is.length := by
  intro p member
  cases point with
  | done => cases member
  | inside q =>
      cases List.mem_singleton.mp member
      exact starts.1

theorem atStart_start (is : List Instruction) : AtStart is (start is) := by
  rw [start, pointAt]
  split
  · next nonempty => exact ⟨nonempty, rfl⟩
  · exact trivial

/-- At the end of a block the machine's steps are the ways that control can take. -/
theorem flowFrom_iff_openStep (h : WellLabelled is) {p : Nat} {b : Node} :
    FlowFrom is p b ↔ ∃ point, OpenStep is p point ∧ nodeOf is point = b := by
  constructor
  · intro flow
    cases flow with
    | jump hp target hq carried =>
        have found := h.positionOf?_eq_some_iff.mpr ⟨_, hq, carried⟩
        exact ⟨.inside _, .step (.jump hp target found), rfl⟩
    | leave hp returns => exact ⟨.done, .step (.leave hp returns), rfl⟩
    | fall hp goesOn more =>
        refine ⟨_, .step (.next hp goesOn), ?_⟩
        rw [pointAt, if_pos more]
        rfl
    | last atEnd => exact ⟨.done, .last atEnd, rfl⟩
  · rintro ⟨point, step, rfl⟩
    cases step with
    | last atEnd => exact .last atEnd
    | step step =>
        cases step with
        | next hp goesOn =>
            have inside := (List.getElem?_eq_some_iff.mp hp).1
            rw [pointAt]
            split
            · next more => exact .fall hp goesOn more
            · exact .last (by omega)
        | jump hp target found =>
            obtain ⟨j, hq, carried⟩ := h.positionOf?_eq_some_iff.mp found
            exact .jump hp target hq carried
        | leave hp returns => exact .leave hp returns

theorem isTargeted_of_carries {p : Nat} {i j : Instruction} {l : Label} (hp : is[p]? = some i)
    (target : i.target? = some l) (carried : j.label = some l) : isTargeted is j = true :=
  isTargeted_of_mem carried (mem_references.mpr ⟨p, i, hp, target⟩)

/-- From the end of a block the machine comes to where one starts. -/
theorem atStart_of_openStep (h : WellLabelled is) {p : Nat} {point : Point}
    (ends : endsBlock is p = true) (step : OpenStep is p point) : AtStart is point := by
  cases step with
  | last _ => exact trivial
  | step step =>
      cases step with
      | next hp goesOn =>
          rw [pointAt]
          split
          · next more =>
              rw [endsBlock, Bool.or_eq_true, beq_iff_eq] at ends
              exact ⟨more, ends.resolve_left (Nat.ne_of_lt more)⟩
          · exact trivial
      | jump hp target found =>
          obtain ⟨j, hq, carried⟩ := h.positionOf?_eq_some_iff.mp found
          exact ⟨(List.getElem?_eq_some_iff.mp hq).1,
            startsBlock_of_targeted hq (isTargeted_of_carries hp target carried)⟩
      | leave _ _ => exact trivial

/-- Before the end of a block the machine can only go on to the next position. -/
theorem openStep_iff_of_not_ends {p : Nat} (inside : p < is.length)
    (more : endsBlock is p = false) {point : Point} :
    OpenStep is p point ↔ point = .inside (p + 1) := by
  have hp := List.getElem?_eq_getElem inside
  have plain : is[p].isTerminator = false := by
    cases ends : is[p].isTerminator with
    | false => rfl
    | true => rw [endsBlock_of_terminator hp ends] at more; cases more
  rw [endsBlock, Bool.or_eq_false_iff, beq_eq_false_iff_ne] at more
  have next : pointAt is (p + 1) = .inside (p + 1) := by rw [pointAt, if_pos (by omega)]
  rw [Instruction.isTerminator, Bool.or_eq_false_iff] at plain
  constructor
  · intro step
    cases step with
    | last atEnd => exact absurd atEnd more.1
    | step step =>
        cases step with
        | next _ _ => exact next
        | jump hp' target _ =>
            cases hp.symm.trans hp'
            rw [Instruction.isBranch, target] at plain
            cases plain.1
        | leave hp' returns =>
            cases hp.symm.trans hp'
            rw [returns] at plain
            cases plain.2
  · rintro rfl
    have goesOn : goesOn is[p].op = true := by
      revert plain
      rw [Instruction.isBranch, Instruction.target?, Instruction.isReturn]
      cases is[p].op with
      | plain text => exact fun _ => rfl
      | branch condition l => exact fun _ => rfl
      | goto l => exact fun plain => absurd plain.1 (by simp [Op.target?])
      | ret value => exact fun plain => absurd plain.2 (by simp [Op.isReturn])
    exact .step (next ▸ .next hp goesOn)

/-- The instructions that the block of a point holds before the point. -/
def heldBefore (is : List Instruction) : Point → List Instruction
  | .inside p => heldFrom (blockAt is) (blockAt is p) 0 (is.take p)
  | .done => []

theorem heldFrom_take_succ (B : Nat → Node) (n : Node) {p : Nat} {i : Instruction}
    (hp : is[p]? = some i) :
    heldFrom B n 0 (is.take (p + 1)) =
      heldFrom B n 0 (is.take p) ++ if B p = n then [i] else [] := by
  have inside := (List.getElem?_eq_some_iff.mp hp).1
  rw [List.take_add_one, hp, Option.toList_some, heldFrom_append, heldFrom_cons,
    List.length_take_of_le (Nat.le_of_lt inside), Nat.zero_add]
  exact congrArg _ (List.append_nil _)

theorem heldFrom_take_append_drop (B : Nat → Node) (n : Node) {p : Nat} (inside : p ≤ is.length) :
    heldFrom B n 0 is = heldFrom B n 0 (is.take p) ++ heldFrom B n p (is.drop p) := by
  have whole := heldFrom_append B n 0 (is.take p) (is.drop p)
  rwa [List.take_append_drop, List.length_take_of_le inside, Nat.zero_add] at whole

theorem heldFrom_drop {B : Nat → Node} {n : Node} {p : Nat} {i : Instruction}
    (hp : is[p]? = some i) (own : B p = n) :
    heldFrom B n p (is.drop p) = i :: heldFrom B n (p + 1) (is.drop (p + 1)) := by
  obtain ⟨inside, rfl⟩ := List.getElem?_eq_some_iff.mp hp
  rw [List.drop_eq_getElem_cons inside, heldFrom_cons, if_pos own]
  rfl

namespace Admissible

theorem heldBefore_of_atStart (h : Admissible is) {point : Point} (starts : AtStart is point) :
    heldBefore is point = [] := by
  cases point with
  | done => rfl
  | inside p =>
      refine heldFrom_eq_nil fun q _ before => ?_
      rw [List.length_take_of_le (Nat.le_of_lt starts.1), Nat.zero_add] at before
      exact h.blockAt_ne_of_starts before starts.1 starts.2

theorem heldFrom_after_end (h : Admissible is) {p : Nat} (inside : p < is.length)
    (ends : endsBlock is p = true) :
    heldFrom (blockAt is) (blockAt is p) (p + 1) (is.drop (p + 1)) = [] := by
  refine heldFrom_eq_nil fun q after before => ?_
  rw [List.length_drop] at before
  exact (h.blockAt_ne_of_ends after (by omega) ends).symm

end Admissible

namespace Built

theorem spelled_eq (h : Built is g) (passed : List Node) :
    g.spelled passed = passed.flatMap fun n => heldFrom (blockAt is) n 0 is := by
  refine List.flatMap_congr fun n _ => ?_
  rw [← h.instructions_vertexOf, Graph.vertexOf]
  cases g.get? n <;> rfl

theorem spelled_blockAt (h : Built is g) {p : Nat} (inside : p < is.length) :
    g.spelled [blockAt is p] =
      heldBefore is (.inside p) ++ heldFrom (blockAt is) (blockAt is p) p (is.drop p) := by
  rw [h.spelled_eq, List.flatMap_singleton, heldBefore,
    ← heldFrom_take_append_drop _ _ (Nat.le_of_lt inside)]

theorem spelled_outer (h : Built is g) {n : Node} (low : n.index < 2) : g.spelled [n] = [] := by
  rw [h.spelled_eq, List.flatMap_singleton, ← h.instructions_vertexOf,
    h.instructions_of_index_lt low]

theorem spelled_nodeOf_end (h : Built is g) {p : Nat} {i : Instruction} (hp : is[p]? = some i)
    (ends : endsBlock is p = true) :
    g.spelled [blockAt is p] = heldBefore is (.inside p) ++ [i] := by
  have inside := (List.getElem?_eq_some_iff.mp hp).1
  rw [h.spelled_blockAt inside, heldFrom_drop hp rfl, h.heldFrom_after_end inside ends]

end Built

/-- A walk that has followed the machine to a point, having spelled `word` and
what stands before the point in its block. -/
def Follows (is : List Instruction) (g : Graph) (point : Point) (word : List Instruction) : Prop :=
  (∀ p ∈ point.here, p < is.length) ∧
    ∃ passed, g.Walk .enter (nodeOf is point) (passed ++ [nodeOf is point]) ∧
      g.spelled passed ++ heldBefore is point = word

namespace Built

theorem follows_start (h : Built is g) : Follows is g (start is) [] := by
  have edge : g.Edge .enter (nodeOf is (start is)) := by
    rw [h.edge_iff_flow, start, pointAt]
    split
    · next nonempty => exact .enter nonempty
    · exact .through (by omega)
  refine ⟨(atStart_start is).inside, [.enter], .step edge (.stay _), ?_⟩
  rw [h.spelled_outer (by decide), h.heldBefore_of_atStart (atStart_start is)]
  rfl

theorem follows_step (h : Built is g) {p : Nat} {point : Point} {word : List Instruction}
    (follows : Follows is g (.inside p) word) (step : OpenStep is p point) :
    Follows is g point (word ++ spell is [p]) := by
  obtain ⟨-, passed, walk, spelled⟩ := follows
  have inside := step.inside
  have hp := List.getElem?_eq_getElem inside
  rw [spell_singleton hp]
  cases ends : endsBlock is p with
  | false =>
      cases (openStep_iff_of_not_ends inside ends).mp step
      rw [endsBlock, Bool.or_eq_false_iff, beq_eq_false_iff_ne] at ends
      have more : p + 1 < is.length := by omega
      have same := h.blockAt_of_not_starts more ends.2
      refine ⟨by simpa [Point.here] using more, passed, ?_, ?_⟩
      · rw [nodeOf, same]
        exact walk
      · rw [← spelled, heldBefore, same, heldFrom_take_succ _ _ hp, if_pos rfl, List.append_assoc]
        rfl
  | true =>
      have flow := (flowFrom_iff_openStep h.toWellLabelled).mpr ⟨point, step, rfl⟩
      have edge := h.edge_iff_flow.mpr ((h.flow_iff_flowFrom inside ends).mpr flow)
      have starts := atStart_of_openStep h.toWellLabelled ends step
      refine ⟨starts.inside, passed ++ [blockAt is p], walk.snoc edge, ?_⟩
      rw [h.heldBefore_of_atStart starts,
        List.append_nil, Graph.spelled_append, h.spelled_nodeOf_end hp ends, ← List.append_assoc,
        spelled]

theorem follows_run (h : Built is g) {a b : Point} {ps : List Nat} {word : List Instruction}
    (follows : Follows is g a word) (run : Run (OpenStep is) a b ps) :
    Follows is g b (word ++ spell is ps) := by
  induction run generalizing word with
  | stay point =>
      rw [spell, List.filterMap_nil, List.append_nil]
      exact follows
  | @step p next last rest step run ih =>
      have rest := ih (h.follows_step follows step)
      rwa [List.append_assoc, ← spell_append] at rest

/-- The machine runs from any position to the end of its block without a choice. -/
theorem exists_run_to_end (h : Built is g) {p : Nat} (inside : p < is.length) :
    ∃ e ps, Run (OpenStep is) (.inside p) (.inside e) ps ∧ e < is.length ∧
      endsBlock is e = true ∧ blockAt is e = blockAt is p ∧
      spell is (ps ++ [e]) = heldFrom (blockAt is) (blockAt is p) p (is.drop p) := by
  induction gap : is.length - p generalizing p with
  | zero => omega
  | succ gap ih =>
      have hp := List.getElem?_eq_getElem inside
      cases ends : endsBlock is p with
      | true =>
          refine ⟨p, [], .stay _, inside, ends, rfl, ?_⟩
          rw [List.nil_append, spell_singleton hp, heldFrom_drop hp rfl,
            h.heldFrom_after_end inside ends]
      | false =>
          have step := (openStep_iff_of_not_ends inside ends).mpr rfl
          rw [endsBlock, Bool.or_eq_false_iff, beq_eq_false_iff_ne] at ends
          have more : p + 1 < is.length := by omega
          have same := h.blockAt_of_not_starts more ends.2
          obtain ⟨e, ps, run, insideE, endsE, sameE, spelled⟩ := ih more (by omega)
          refine ⟨e, p :: ps, .step step run, insideE, endsE, sameE.trans same, ?_⟩
          rw [same] at spelled
          have split : p :: ps ++ [e] = [p] ++ (ps ++ [e]) := rfl
          rw [split, spell_append, spelled, spell_singleton hp, heldFrom_drop hp rfl]
          rfl

theorem spelled_atStart (h : Built is g) {p : Nat} (starts : AtStart is (.inside p)) :
    g.spelled [blockAt is p] = heldFrom (blockAt is) (blockAt is p) p (is.drop p) := by
  rw [h.spelled_blockAt starts.1, h.heldBefore_of_atStart starts, List.nil_append]

/-- A walk from where a block starts is a run through the blocks that it passes. -/
theorem exists_run_of_walk (h : Built is g) {a c : Node} {passed : List Node}
    (walk : g.Walk a c passed) {point : Point} (starts : AtStart is point)
    (here : nodeOf is point = a) :
    ∃ last ps, Run (OpenStep is) point last ps ∧ spell is ps = g.spelled passed ∧
      (c = .exit → last = .done) := by
  induction walk generalizing point with
  | stay n =>
      subst here
      cases point with
      | done =>
          have empty := h.spelled_outer (n := .exit) (by decide)
          exact ⟨.done, [], .stay _, empty.symm, fun _ => rfl⟩
      | inside p =>
          obtain ⟨e, ps, run, insideE, endsE, same, spelled⟩ := h.exists_run_to_end starts.1
          obtain ⟨b, flow⟩ := exists_flowFrom h.toWellLabelled (List.getElem?_eq_getElem insideE)
          obtain ⟨next, step, -⟩ := (flowFrom_iff_openStep h.toWellLabelled).mp flow
          refine ⟨next, ps ++ [e], run.append (.single step), ?_, ?_⟩
          · exact spelled.trans (h.spelled_atStart starts).symm
          · intro atExit
            exact absurd atExit (h.blockAt_ne_exit starts.1)
  | @step a b c rest edge walk ih =>
      subst here
      cases point with
      | done => exact absurd rfl (h.flow_ends (h.edge_iff_flow.mp edge)).2.1
      | inside p =>
          obtain ⟨e, ps, run, insideE, endsE, same, spelled⟩ := h.exists_run_to_end starts.1
          have flow := h.edge_iff_flow.mp edge
          rw [nodeOf, ← same, h.flow_iff_flowFrom insideE endsE,
            flowFrom_iff_openStep h.toWellLabelled] at flow
          obtain ⟨next, step, there⟩ := flow
          have startsNext := atStart_of_openStep h.toWellLabelled endsE step
          obtain ⟨last, qs, runNext, spelledNext, finished⟩ := ih startsNext there
          refine ⟨last, (ps ++ [e]) ++ qs, (run.append (.single step)).append runNext, ?_, finished⟩
          have split : nodeOf is (.inside p) :: rest = [blockAt is p] ++ rest := rfl
          rw [spell_append, spelled, spelledNext, split, Graph.spelled_append,
            h.spelled_atStart starts]

/-- The only edge out of the node where control enters leads to where it starts. -/
theorem nodeOf_start_of_edge (h : Built is g) {b : Node} (edge : g.Edge .enter b) :
    nodeOf is (start is) = b := by
  have flow := h.edge_iff_flow.mp edge
  generalize source : Node.enter = a at flow
  have notEnter : ∀ {p : Nat}, p < is.length → Node.enter ≠ blockAt is p :=
    fun inside => (h.blockAt_ne_enter inside).symm
  cases flow with
  | enter nonempty => rw [start, pointAt, if_pos nonempty]; rfl
  | through empty => rw [start, pointAt, if_neg (by omega)]; rfl
  | jump hp _ _ _ => exact absurd source (notEnter (List.getElem?_eq_some_iff.mp hp).1)
  | leave hp _ => exact absurd source (notEnter (List.getElem?_eq_some_iff.mp hp).1)
  | fall hp _ _ _ => exact absurd source (notEnter (List.getElem?_eq_some_iff.mp hp).1)
  | last atEnd => exact absurd source (notEnter (by omega))

theorem exists_run_of_walk_enter (h : Built is g) {c : Node} {passed : List Node}
    (walk : g.Walk .enter c passed) :
    ∃ last ps, Run (OpenStep is) (start is) last ps ∧ spell is ps = g.spelled passed ∧
      (c = .exit → last = .done) := by
  generalize source : Node.enter = a at walk
  cases walk with
  | stay n =>
      subst source
      refine ⟨start is, [], .stay _, (h.spelled_outer (by decide)).symm, ?_⟩
      intro same
      exact absurd same (by decide)
  | @step a b c rest edge walk =>
      subst source
      obtain ⟨last, ps, run, spelled, finished⟩ :=
        h.exists_run_of_walk walk (atStart_start is) (h.nodeOf_start_of_edge edge)
      refine ⟨last, ps, run, ?_, finished⟩
      have split : Node.enter :: rest = [Node.enter] ++ rest := rfl
      rw [spelled, split, Graph.spelled_append, h.spelled_outer (by decide), List.nil_append]

theorem follows_of_run (h : Built is g) {point : Point} {ps : List Nat}
    (run : Run (OpenStep is) (start is) point ps) : Follows is g point (spell is ps) := by
  have follows := h.follows_run h.follows_start run
  rwa [List.nil_append] at follows

theorem prefix_spelled (h : Built is g) {point : Point} (inside : ∀ p ∈ point.here, p < is.length) :
    heldBefore is point ++ spell is point.here <+: g.spelled [nodeOf is point] := by
  cases point with
  | done => exact List.nil_prefix
  | inside p =>
      have hp := List.getElem?_eq_getElem (inside p List.mem_cons_self)
      rw [nodeOf, h.spelled_blockAt (inside p List.mem_cons_self), heldFrom_drop hp rfl, Point.here,
        spell_singleton hp, List.prefix_append_right_inj]
      exact List.prefix_append [_] _

end Built

/-- The graph of a list and the machine on it execute the same instructions, in
whole runs and in part. -/
theorem runs_are_walks (short : is.length ≤ Key.count 32 - 2) (built : build is = .ok g) :
    (∀ word, (∃ ps, Run (OpenStep is) (start is) .done ps ∧ spell is ps = word) ↔
      ∃ passed, g.Walk .enter .exit passed ∧ g.spelled passed = word) ∧
    (∀ point ps, Run (OpenStep is) (start is) point ps →
      ∃ n passed, g.Walk .enter n passed ∧ spell is (ps ++ point.here) <+: g.spelled passed) ∧
    ∀ n passed, g.Walk .enter n passed →
      ∃ point ps, Run (OpenStep is) (start is) point ps ∧ spell is ps = g.spelled passed := by
  have h := Built.of_build short built
  refine ⟨fun word => ⟨?_, ?_⟩, ?_, ?_⟩
  · rintro ⟨ps, run, rfl⟩
    obtain ⟨-, passed, walk, spelled⟩ := h.follows_of_run run
    refine ⟨_, walk, ?_⟩
    rw [Graph.spelled_append, nodeOf, h.spelled_outer (by decide)]
    exact spelled
  · rintro ⟨passed, walk, rfl⟩
    obtain ⟨last, ps, run, spelled, finished⟩ := h.exists_run_of_walk_enter walk
    rw [finished rfl] at run
    exact ⟨ps, run, spelled⟩
  · intro point ps run
    obtain ⟨inside, passed, walk, spelled⟩ := h.follows_of_run run
    refine ⟨_, _, walk, ?_⟩
    rw [spell_append, Graph.spelled_append, ← spelled, List.append_assoc,
      List.prefix_append_right_inj]
    exact h.prefix_spelled inside
  · intro n passed walk
    obtain ⟨last, ps, run, spelled, -⟩ := h.exists_run_of_walk_enter walk
    exact ⟨last, ps, run, spelled⟩

theorem walk_through_sampleLoop :
    sampleLoop.length ≤ Key.count 32 - 2 ∧ ∃ g, build sampleLoop = .ok g ∧ ∃ passed,
      g.Walk .enter .exit passed ∧ g.spelled passed = spell sampleLoop [0, 1, 2, 0, 4] := by
  refine ⟨by decide, _, rfl, ?_⟩
  apply ((@runs_are_walks sampleLoop _ (by decide) rfl).1 _).mp
  refine ⟨_, .step (.step (.next rfl rfl)) ?_, rfl⟩
  refine .step (.step (.next rfl rfl)) ?_
  refine .step (.step (.jump rfl rfl rfl)) ?_
  refine .step (.step (.jump rfl rfl rfl)) ?_
  exact .step (.step (.leave rfl rfl)) (.stay _)

end FlowGraph.Construction
