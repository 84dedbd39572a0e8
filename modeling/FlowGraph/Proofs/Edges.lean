import FlowGraph.Graph.Walk
import FlowGraph.Proofs.Vertices

/-! The edges of a built graph. An edge stands for one way that control can
take: into the list, along a branch, out of it at a return, on into a block that
starts, and out after the last position. Every edge is recorded at both ends. -/
namespace FlowGraph.Construction

variable {is : List Instruction} {g : Graph}

/-- The edges that a list calls for when `B` gives the block of each position. -/
inductive Flow (is : List Instruction) (B : Nat → Node) : Node → Node → Prop where
  | enter : 0 < is.length → Flow is B .enter (B 0)
  | through : is.length = 0 → Flow is B .enter .exit
  | jump {p q : Nat} {i j : Instruction} {l : Label} : is[p]? = some i → i.target? = some l →
      is[q]? = some j → j.label = some l → Flow is B (B p) (B q)
  | leave {p : Nat} {i : Instruction} : is[p]? = some i → i.isReturn = true → Flow is B (B p) .exit
  | fall {p : Nat} {i : Instruction} : is[p]? = some i → Machine.goesOn i.op = true →
      p + 1 < is.length → startsBlock is (p + 1) = true → Flow is B (B p) (B (p + 1))
  | last {p : Nat} : p + 1 = is.length → Flow is B (B p) .exit

theorem targetNode?_eq_blockAt (h : WellLabelled is) {p q : Nat} {i j : Instruction} {l : Label}
    (hp : is[p]? = some i) (target : i.target? = some l) (hq : is[q]? = some j)
    (carried : j.label = some l) : targetNode? (targets is) l = some (blockAt is q) := by
  have member : l ∈ targets is := h.mem_targets.mpr (mem_references.mpr ⟨p, i, hp, target⟩)
  obtain ⟨node, found⟩ := Option.isSome_iff_exists.mp (targetNode?_isSome_iff.mpr member)
  have opened : opening (targets is) (cursorAt is q).boundary j = .target node := by
    rw [opening, carried, Option.bind_some, found]
  rw [found, blockAt_eq hq, opened]
  rfl

/-- Where control may go from a position other than to the next one. -/
theorem jump?_eq_some_iff (h : WellLabelled is) {p : Nat} {i : Instruction} (hp : is[p]? = some i)
    {b : Node} : jump? (targets is) i.op = some b ↔
      (∃ (q : Nat) (j : Instruction) (l : Label), i.target? = some l ∧ is[q]? = some j ∧
        j.label = some l ∧ b = blockAt is q) ∨ (i.isReturn = true ∧ b = .exit) := by
  have toTarget : ∀ l, i.target? = some l →
      (targetNode? (targets is) l = some b ↔
        ∃ (q : Nat) (j : Instruction), is[q]? = some j ∧ j.label = some l ∧ b = blockAt is q) := by
    intro l target
    obtain ⟨q, j, hq, carried⟩ := h.exists_target hp target
    rw [targetNode?_eq_blockAt h hp target hq carried, Option.some.injEq]
    constructor
    · rintro rfl
      exact ⟨q, j, hq, carried, rfl⟩
    · rintro ⟨q', j', hq', carried', rfl⟩
      rw [h.position_unique hq carried hq' carried']
  obtain ⟨label, op⟩ := i
  cases op with
  | plain text => simp [jump?, Instruction.target?, Op.target?, Instruction.isReturn, Op.isReturn]
  | goto l =>
      rw [jump?, toTarget l rfl]
      simp [Instruction.target?, Op.target?, Instruction.isReturn, Op.isReturn]
  | branch condition l =>
      rw [jump?, toTarget l rfl]
      simp [Instruction.target?, Op.target?, Instruction.isReturn, Op.isReturn]
  | ret value =>
      simp [jump?, Instruction.target?, Op.target?, Instruction.isReturn, Op.isReturn, eq_comm]

theorem flow_iff_connect (h : WellLabelled is) {a b : Node} :
    Flow is (blockAt is) a b ↔ .connect a b ∈ edits is := by
  rw [connect_mem_edits h]
  constructor
  · intro flow
    cases flow with
    | enter nonempty =>
        exact .inl ⟨0, is[0], List.getElem?_eq_getElem nonempty, .inl ⟨rfl, rfl, rfl, rfl⟩⟩
    | through empty =>
        refine .inr ⟨?_, rfl⟩
        rw [empty]
        rfl
    | jump hp target hq carried =>
        exact .inl ⟨_, _, hp, .inr ⟨rfl,
          (jump?_eq_some_iff h hp).mpr (.inl ⟨_, _, _, target, hq, carried, rfl⟩)⟩⟩
    | leave hp returns =>
        exact .inl ⟨_, _, hp, .inr ⟨rfl, (jump?_eq_some_iff h hp).mpr (.inr ⟨returns, rfl⟩)⟩⟩
    | fall hp goesOn inside starts =>
        refine .inl ⟨_, is[_ + 1], List.getElem?_eq_getElem inside, .inl ⟨starts, ?_, rfl, rfl⟩⟩
        rw [boundary_cursorAt_succ hp, after_falls, goesOn]
    | last ends =>
        refine .inr ⟨?_, rfl⟩
        rw [← ends]
        rfl
  · rintro (⟨p, i, hp, ⟨starts, falls, rfl, rfl⟩ | ⟨rfl, jumps⟩⟩ | ⟨rfl, rfl⟩)
    · have inside := (List.getElem?_eq_some_iff.mp hp).1
      cases p with
      | zero => exact .enter inside
      | succ p =>
          have before := List.getElem?_eq_getElem (Nat.lt_of_succ_lt inside)
          rw [boundary_cursorAt_succ before, after_falls] at falls
          exact .fall before falls inside starts
    · rcases (jump?_eq_some_iff h hp).mp jumps with
        ⟨q, j, l, target, hq, carried, rfl⟩ | ⟨returns, rfl⟩
      · exact .jump hp target hq carried
      · exact .leave hp returns
    · cases length : is.length with
      | zero => exact .through length
      | succ m => exact .last length.symm

theorem endsBlock_of_terminator {p : Nat} {i : Instruction} (hp : is[p]? = some i)
    (ends : i.isTerminator = true) : endsBlock is p = true := by
  rw [endsBlock, startsBlock, hp, Option.any_some, ends, Bool.or_true, Bool.or_true]

/-- Only the last position of a block has an edge of its own. -/
inductive FlowFrom (is : List Instruction) (p : Nat) : Node → Prop where
  | jump {q : Nat} {i j : Instruction} {l : Label} : is[p]? = some i → i.target? = some l →
      is[q]? = some j → j.label = some l → FlowFrom is p (blockAt is q)
  | leave {i : Instruction} : is[p]? = some i → i.isReturn = true → FlowFrom is p .exit
  | fall {i : Instruction} : is[p]? = some i → Machine.goesOn i.op = true → p + 1 < is.length →
      FlowFrom is p (blockAt is (p + 1))
  | last : p + 1 = is.length → FlowFrom is p .exit

theorem Admissible.blockAt_ne_enter (h : Admissible is) {p : Nat} (inside : p < is.length) :
    blockAt is p ≠ .enter := (two_le_index_iff.mp (h.index_blockAt_lt inside).1).1

theorem Admissible.blockAt_ne_exit (h : Admissible is) {p : Nat} (inside : p < is.length) :
    blockAt is p ≠ .exit := (two_le_index_iff.mp (h.index_blockAt_lt inside).1).2

theorem Admissible.flow_iff_flowFrom (h : Admissible is) {p : Nat} (inside : p < is.length)
    (ends : endsBlock is p = true) {b : Node} :
    Flow is (blockAt is) (blockAt is p) b ↔ FlowFrom is p b := by
  constructor
  · intro flow
    generalize source : blockAt is p = a at flow
    have same : ∀ {q : Nat}, q < is.length → endsBlock is q = true → blockAt is p = blockAt is q →
        p = q := fun hq endsQ equal => h.ends_unique inside hq ends endsQ equal
    cases flow with
    | enter _ => exact absurd source (h.blockAt_ne_enter inside)
    | through _ => exact absurd source (h.blockAt_ne_enter inside)
    | jump hp target hq carried =>
        have isEnd := endsBlock_of_terminator hp (by rw [Instruction.isTerminator,
          Instruction.isBranch, target, Option.isSome_some, Bool.true_or])
        cases same (List.getElem?_eq_some_iff.mp hp).1 isEnd source
        exact .jump hp target hq carried
    | leave hp returns =>
        have isEnd := endsBlock_of_terminator hp (by rw [Instruction.isTerminator, returns,
          Bool.or_true])
        cases same (List.getElem?_eq_some_iff.mp hp).1 isEnd source
        exact .leave hp returns
    | @fall q i hp goesOn more starts =>
        have isEnd : endsBlock is q = true := by rw [endsBlock, starts, Bool.or_true]
        cases same (List.getElem?_eq_some_iff.mp hp).1 isEnd source
        exact .fall hp goesOn more
    | @last q atEnd =>
        have isEnd : endsBlock is q = true := by rw [endsBlock, beq_iff_eq.mpr atEnd, Bool.true_or]
        cases same (by omega) isEnd source
        exact .last atEnd
  · intro flow
    cases flow with
    | jump hp target hq carried => exact .jump hp target hq carried
    | leave hp returns => exact .leave hp returns
    | fall hp goesOn more =>
        rw [endsBlock, Bool.or_eq_true, beq_iff_eq] at ends
        exact .fall hp goesOn more (ends.resolve_left (Nat.ne_of_lt more))
    | last atEnd => exact .last atEnd

/-- Where control goes from a position without a jump. -/
def onward? (is : List Instruction) (p : Nat) (i : Instruction) : Option Node :=
  if p + 1 = is.length then some .exit
  else if Machine.goesOn i.op then some (blockAt is (p + 1)) else none

theorem flowFrom_iff (h : WellLabelled is) {p : Nat} {i : Instruction} (hp : is[p]? = some i)
    {b : Node} : FlowFrom is p b ↔ jump? (targets is) i.op = some b ∨ onward? is p i = some b := by
  have inside := (List.getElem?_eq_some_iff.mp hp).1
  rw [jump?_eq_some_iff h hp]
  constructor
  · intro flow
    cases flow with
    | jump hp' target hq carried =>
        cases hp.symm.trans hp'
        exact .inl (.inl ⟨_, _, _, target, hq, carried, rfl⟩)
    | leave hp' returns =>
        cases hp.symm.trans hp'
        exact .inl (.inr ⟨returns, rfl⟩)
    | fall hp' goesOn more =>
        cases hp.symm.trans hp'
        exact .inr (by rw [onward?, if_neg (Nat.ne_of_lt more), if_pos goesOn])
    | last atEnd => exact .inr (by rw [onward?, if_pos atEnd])
  · rintro ((⟨q, j, l, target, hq, carried, rfl⟩ | ⟨returns, rfl⟩) | goes)
    · exact .jump hp target hq carried
    · exact .leave hp returns
    · rw [onward?] at goes
      split at goes
      · next atEnd =>
          cases goes
          exact .last atEnd
      · next more =>
          split at goes
          · next goesOn =>
              cases goes
              exact .fall hp goesOn (by omega)
          · cases goes

theorem exists_flowFrom (h : WellLabelled is) {p : Nat} {i : Instruction} (hp : is[p]? = some i) :
    ∃ b, FlowFrom is p b := by
  have inside := (List.getElem?_eq_some_iff.mp hp).1
  have toTarget : ∀ l, i.target? = some l → ∃ b, FlowFrom is p b := by
    intro l target
    obtain ⟨q, j, hq, carried⟩ := h.exists_target hp target
    exact ⟨_, .jump hp target hq carried⟩
  rcases Nat.lt_or_eq_of_le (Nat.succ_le_of_lt inside) with more | atEnd
  · obtain ⟨label, op⟩ := i
    cases op with
    | plain text => exact ⟨_, .fall hp rfl more⟩
    | goto l => exact toTarget l rfl
    | branch condition l => exact toTarget l rfl
    | ret value => exact ⟨_, .leave hp rfl⟩
  · exact ⟨_, .last atEnd⟩

/-- Every position is followed, in its block, by one that ends the block. -/
theorem Admissible.exists_end (h : Admissible is) {p : Nat} (inside : p < is.length) :
    ∃ e, p ≤ e ∧ e < is.length ∧ endsBlock is e = true ∧ blockAt is e = blockAt is p := by
  induction gap : is.length - p generalizing p with
  | zero => omega
  | succ gap ih =>
      cases ends : endsBlock is p with
      | true => exact ⟨p, Nat.le_refl p, inside, ends, rfl⟩
      | false =>
          rw [endsBlock, Bool.or_eq_false_iff, beq_eq_false_iff_ne] at ends
          have more : p + 1 < is.length := by omega
          obtain ⟨e, le, insideE, endsE, same⟩ := ih more (by omega)
          exact ⟨e, by omega, insideE, endsE, same.trans (h.blockAt_of_not_starts more ends.2)⟩

namespace Built

theorem index_blockAt_lt_size (h : Built is g) {p : Nat} (inside : p < is.length) :
    (blockAt is p).index < g.size := Graph.lt_size_of_get? (h.get?_blockAt inside)

/-- Edges join nodes of the graph, none of them into the node where control
enters or out of the one where it leaves. -/
theorem flow_ends (h : Built is g) {a b : Node} (flow : Flow is (blockAt is) a b) :
    (a.index < g.size ∧ b.index < g.size) ∧ a ≠ .exit ∧ b ≠ .enter := by
  have two := h.two_le_size
  have atEnter : Node.enter.index < g.size := Nat.lt_of_lt_of_le (by decide) two
  have atExit : Node.exit.index < g.size := Nat.lt_of_lt_of_le (by decide) two
  have outer : Node.enter ≠ Node.exit := by decide
  have inside : ∀ {p : Nat} {i : Instruction}, is[p]? = some i → p < is.length :=
    fun hp => (List.getElem?_eq_some_iff.mp hp).1
  cases flow with
  | enter nonempty =>
      exact ⟨⟨atEnter, h.index_blockAt_lt_size nonempty⟩, outer, h.blockAt_ne_enter nonempty⟩
  | through _ => exact ⟨⟨atEnter, atExit⟩, outer, outer.symm⟩
  | jump hp _ hq _ =>
      exact ⟨⟨h.index_blockAt_lt_size (inside hp), h.index_blockAt_lt_size (inside hq)⟩,
        h.blockAt_ne_exit (inside hp), h.blockAt_ne_enter (inside hq)⟩
  | leave hp _ =>
      have start := h.index_blockAt_lt_size (inside hp)
      exact ⟨⟨start, atExit⟩, h.blockAt_ne_exit (inside hp), outer.symm⟩
  | fall hp _ more _ =>
      exact ⟨⟨h.index_blockAt_lt_size (inside hp), h.index_blockAt_lt_size more⟩,
        h.blockAt_ne_exit (inside hp), h.blockAt_ne_enter more⟩
  | last atEnd =>
      have last : _ < is.length := Nat.lt_of_succ_le (Nat.le_of_eq atEnd)
      exact ⟨⟨h.index_blockAt_lt_size last, atExit⟩, h.blockAt_ne_exit last, outer.symm⟩

theorem mem_succs_iff_flow (h : Built is g) {a b : Node} :
    b ∈ (g.vertexOf a).succs ↔ Flow is (blockAt is) a b := by
  rw [h.mem_succs_vertexOf, flow_iff_connect h.toWellLabelled]

theorem mem_preds_iff_flow (h : Built is g) {a b : Node} :
    a ∈ (g.vertexOf b).preds ↔ Flow is (blockAt is) a b := by
  rw [h.mem_preds_vertexOf, flow_iff_connect h.toWellLabelled]

theorem edge_iff_flow (h : Built is g) {a b : Node} : g.Edge a b ↔ Flow is (blockAt is) a b := by
  constructor
  · rintro ⟨v, read, succ⟩
    rw [← h.mem_succs_iff_flow, Graph.vertexOf_eq read]
    exact succ
  · intro flow
    exact ⟨g.vertexOf a, Graph.get?_eq_some_vertexOf (h.flow_ends flow).1.1,
      h.mem_succs_iff_flow.mpr flow⟩

theorem mem_edges_iff_flow (h : Built is g) {a b : Node} :
    (a, b) ∈ g.edges ↔ Flow is (blockAt is) a b :=
  (Graph.mem_edges_iff h.size_le).trans h.edge_iff_flow

theorem length_succs (h : Built is g) {p : Nat} (inside : p < is.length) :
    1 ≤ (g.vertexOf (blockAt is p)).succs.toList.length ∧
      (g.vertexOf (blockAt is p)).succs.toList.length ≤ 2 := by
  obtain ⟨e, _, insideE, ends, same⟩ := h.exists_end inside
  have he := List.getElem?_eq_getElem insideE
  have succs : ∀ b, b ∈ (g.vertexOf (blockAt is p)).succs.toList ↔ FlowFrom is e b := by
    intro b
    rw [KeySet.mem_toList, h.mem_succs_iff_flow, ← same, h.flow_iff_flowFrom insideE ends]
  constructor
  · obtain ⟨b, flow⟩ := exists_flowFrom h.toWellLabelled he
    exact List.length_pos_of_mem ((succs b).mpr flow)
  · have nodup := (g.vertexOf (blockAt is p)).succs.nodup_toList
    have within : (g.vertexOf (blockAt is p)).succs.toList ⊆
        (jump? (targets is) is[e].op).toList ++ (onward? is e is[e]).toList := by
      intro b member
      rw [List.mem_append, Option.mem_toList, Option.mem_toList]
      exact (flowFrom_iff h.toWellLabelled he).mp ((succs b).mp member)
    refine Nat.le_trans (nodup.subperm within).length_le ?_
    rw [List.length_append]
    exact Nat.add_le_add Option.length_toList_le Option.length_toList_le

end Built

/-- The edges of a built graph are those that its list calls for, and no others. -/
theorem edges_exact (short : is.length ≤ Key.count 32 - 2) (built : build is = .ok g) :
    (∀ p, p < is.length → blockAt is p ∈ g.blocks) ∧
    (∀ n v, g.get? n = some v → v.instructions = heldFrom (blockAt is) n 0 is) ∧
    (∀ a b, (a, b) ∈ g.edges ↔ Flow is (blockAt is) a b) ∧
    (∀ a b, (a, b) ∈ g.edges → g.contains a = true ∧ g.contains b = true) ∧
    (∀ a b, (∃ v, g.get? b = some v ∧ a ∈ v.preds) ↔ (a, b) ∈ g.edges) ∧
    (∃ v, g.get? .enter = some v ∧ v.preds = ∅) ∧ (∃ v, g.get? .exit = some v ∧ v.succs = ∅) ∧
    ∀ n ∈ g.blocks, ∃ v, g.get? n = some v ∧ 1 ≤ v.succs.toList.length ∧
      v.succs.toList.length ≤ 2 := by
  have h := Built.of_build short built
  have two := h.two_le_size
  refine ⟨fun _ => h.blockAt_mem_blocks, fun _ _ => h.instructions_of_get?,
    fun a b => h.mem_edges_iff_flow, ?_, ?_, ?_, ?_, ?_⟩
  · intro a b edge
    have ends := (h.flow_ends (h.mem_edges_iff_flow.mp edge)).1
    exact ⟨Table.contains_iff.mpr ends.1, Table.contains_iff.mpr ends.2⟩
  · intro a b
    rw [h.mem_edges_iff_flow, ← h.mem_preds_iff_flow]
    constructor
    · rintro ⟨v, read, pred⟩
      rw [Graph.vertexOf_eq read]
      exact pred
    · intro pred
      have flow := h.mem_preds_iff_flow.mp pred
      exact ⟨g.vertexOf b, Graph.get?_eq_some_vertexOf (h.flow_ends flow).1.2, pred⟩
  · refine ⟨g.vertexOf .enter, Graph.get?_eq_some_vertexOf (Nat.lt_of_lt_of_le (by decide) two), ?_⟩
    refine KeySet.eq_of_mem_iff fun a => ⟨fun pred => ?_, fun pred => absurd pred (by simp)⟩
    exact absurd rfl (h.flow_ends (h.mem_preds_iff_flow.mp pred)).2.2
  · refine ⟨g.vertexOf .exit, Graph.get?_eq_some_vertexOf (Nat.lt_of_lt_of_le (by decide) two), ?_⟩
    refine KeySet.eq_of_mem_iff fun b => ⟨fun succ => ?_, fun succ => absurd succ (by simp)⟩
    exact absurd rfl (h.flow_ends (h.mem_succs_iff_flow.mp succ)).2.1
  · intro n member
    obtain ⟨p, inside, _, rfl⟩ := h.mem_blocks_iff_starts.mp member
    exact ⟨_, h.get?_blockAt inside, h.length_succs inside⟩

theorem edges_of_sampleLoop :
    sampleLoop.length ≤ Key.count 32 - 2 ∧ ∃ g, build sampleLoop = .ok g ∧
    (blockAt sampleLoop 2, blockAt sampleLoop 0) ∈ g.edges ∧
    (blockAt sampleLoop 3, blockAt sampleLoop 4) ∈ g.edges ∧
    (blockAt sampleLoop 2, blockAt sampleLoop 3) ∉ g.edges := by
  refine ⟨by decide, _, rfl, ?_⟩
  have exact := (@edges_exact sampleLoop _ (by decide) rfl).2.2.1
  refine ⟨(exact _ _).mpr (.jump (p := 2) rfl rfl rfl rfl),
    (exact _ _).mpr (.fall (p := 3) rfl rfl (by decide) rfl), by decide⟩

end FlowGraph.Construction
