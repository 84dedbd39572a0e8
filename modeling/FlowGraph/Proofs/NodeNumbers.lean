import FlowGraph.Proofs.Execution
import Mathlib.Data.List.Induction

/-! The numbers of the nodes. Control enters at node 0 and leaves at node 1. The next
numbers go to the blocks of branch targets, in the order in which the targets are
first referred to, and the ones after that to all other blocks, in the order of the
list. Each block holds an instruction of its own, so the numbers suffice and no key
is given out twice. -/
namespace FlowGraph

theorem Graph.map_index_toList {g : Graph} (small : g.size ≤ Key.count 32) :
    g.toList.map (·.1.index) = List.range g.size := by
  have keys : g.toList.map (·.1.index) = g.vertices.keys.map (·.index) := by
    rw [← Table.map_fst_toList, List.map_map]
    rfl
  rw [keys, Table.keys, List.map_map]
  conv_rhs => rw [← List.map_id (List.range g.size)]
  apply List.map_congr_left
  intro m member
  exact Key.index_ofIndex_of_lt (Nat.lt_of_lt_of_le (List.mem_range.mp member) small)

namespace Construction

variable {is : List Instruction} {g : Graph}

/-- The labels that branches refer to, each of them once, in the order of the
first references to them. -/
structure InReferenceOrder (is : List Instruction) (ts : List Label) : Prop where
  members : ∀ l, l ∈ ts ↔ l ∈ references is
  order : ts.Pairwise fun a b => (references is).idxOf a < (references is).idxOf b

theorem pairwise_idxOf_eraseDups (ls : List Label) :
    ls.eraseDups.Pairwise fun a b => ls.idxOf a < ls.idxOf b := by
  induction ls using List.reverseRecOn with
  | nil => exact .nil
  | append_singleton ls l ih =>
      have kept : ls.eraseDups.Pairwise
          fun a b => (ls ++ [l]).idxOf a < (ls ++ [l]).idxOf b := by
        apply ih.imp_of_mem
        intro a b ha hb less
        rwa [List.idxOf_append_of_mem (List.mem_eraseDups.mp ha),
          List.idxOf_append_of_mem (List.mem_eraseDups.mp hb)]
      rw [List.eraseDups_append]
      by_cases old : l ∈ ls
      · simpa [List.removeAll, old] using kept
      · have new : [l].removeAll ls = [l] := by simp [List.removeAll, old]
        have single : [l].eraseDups = [l] := rfl
        rw [new, single, List.pairwise_append]
        refine ⟨kept, List.pairwise_singleton _ l, ?_⟩
        intro a ha b hb
        have earlier : a ∈ ls := List.mem_eraseDups.mp ha
        rw [List.mem_singleton.mp hb, List.idxOf_append_of_mem earlier,
          List.idxOf_append_of_notMem old]
        exact Nat.lt_of_lt_of_le (List.idxOf_lt_length_iff.mpr earlier) (Nat.le_add_right _ _)

theorem WellLabelled.inReferenceOrder (h : WellLabelled is) : InReferenceOrder is (targets is) where
  members := fun _ => h.mem_targets
  order := by
    rw [h.targets_eq]
    exact pairwise_idxOf_eraseDups _

/-- A block starts at the position, and not for a target. -/
def startsOther (is : List Instruction) (p : Nat) : Bool :=
  startsBlock is p && !(is[p]?.any (isTargeted is))

/-- The positions before `p` where such a block starts, in order. -/
def otherStarts (is : List Instruction) (p : Nat) : List Nat :=
  (List.range p).filter (startsOther is)

theorem startsOther_eq {p : Nat} {i : Instruction} (hp : is[p]? = some i) :
    startsOther is p = (startsBlock is p && !isTargeted is i) := by
  rw [startsOther, hp, Option.any_some]

theorem otherStarts_succ_of_pos {p : Nat} (starts : startsOther is p = true) :
    otherStarts is (p + 1) = otherStarts is p ++ [p] := by
  rw [otherStarts, List.range_succ, List.filter_append, List.filter_singleton, starts]
  rfl

theorem otherStarts_succ_of_neg {p : Nat} (goesOn : startsOther is p = false) :
    otherStarts is (p + 1) = otherStarts is p := by
  rw [otherStarts, List.range_succ, List.filter_append, List.filter_singleton, goesOn]
  exact List.append_nil _

/-- Construction has given out one number after another to the blocks that are not
set aside. -/
theorem Admissible.numbers_so_far (h : Admissible is) {p : Nat} (within : p ≤ is.length) :
    (cursorAt is p).fresh = 2 + (targets is).length + (otherStarts is p).length ∧
      (otherStarts is p).map (fun q => (blockAt is q).index) =
        List.range' (2 + (targets is).length) (otherStarts is p).length := by
  induction p with
  | zero => exact ⟨rfl, rfl⟩
  | succ p ih =>
      obtain ⟨next, numbers⟩ := ih (Nat.le_of_succ_le within)
      have hp := List.getElem?_eq_getElem (Nat.lt_of_succ_le within)
      cases h.numbering hp with
      | @target l j carried index starts number same =>
          -- The block was set aside before the first position and takes no new number.
          have member : l ∈ targets is := List.mem_of_getElem? (getElem?_of_idxOf? index)
          have targeted := isTargeted_of_mem carried (h.mem_targets.mp member)
          have goesOn : startsOther is p = false := by
            rw [startsOther_eq hp, targeted, Bool.not_true, Bool.and_false]
          rw [otherStarts_succ_of_neg goesOn, same]
          exact ⟨next, numbers⟩
      | fresh free starts number more =>
          have other : startsOther is p = true := by
            rw [startsOther_eq hp, starts, free]
            rfl
          rw [otherStarts_succ_of_pos other, more, next, List.map_append, numbers,
            List.length_append, List.length_singleton, List.range'_1_concat, List.map_singleton,
            number, next]
          exact ⟨rfl, rfl⟩
      | stay before goesOn same kept =>
          have inside : startsOther is p = false := by
            rw [startsOther_eq hp, goesOn, Bool.false_and]
          rw [otherStarts_succ_of_neg inside, kept]
          exact ⟨next, numbers⟩

/-- The instruction at a position is the first one that a block holds. -/
structure Heads (is : List Instruction) (g : Graph) (p : Nat) (n : Node) : Prop where
  held : ∃ v i rest, g.get? n = some v ∧ v.instructions = i :: rest ∧ is[p]? = some i
  own : blockAt is p = n
  first : ∀ q, q < p → blockAt is q ≠ n

namespace Built

theorem heads (h : Built is g) {p : Nat} (inside : p < is.length)
    (starts : startsBlock is p = true) : Heads is g p (blockAt is p) where
  held := by
    have hp := List.getElem?_eq_getElem inside
    have atStart : AtStart is (.inside p) := ⟨inside, starts⟩
    have nothing : heldFrom (blockAt is) (blockAt is p) 0 (is.take p) = [] :=
      h.heldBefore_of_atStart atStart
    have instructions : (g.vertexOf (blockAt is p)).instructions =
        is[p] :: heldFrom (blockAt is) (blockAt is p) (p + 1) (is.drop (p + 1)) := by
      rw [h.instructions_vertexOf, heldFrom_take_append_drop _ _ (Nat.le_of_lt inside), nothing,
        heldFrom_drop hp rfl, List.nil_append]
    exact ⟨_, _, _, h.get?_blockAt inside, instructions, hp⟩
  own := rfl
  first := fun _ before => h.blockAt_ne_of_starts before inside starts

theorem map_index_toList (h : Built is g) :
    g.toList.map (·.1.index) = 0 :: 1 :: List.range' 2 (g.size - 2) := by
  have two : g.size = g.size - 2 + 1 + 1 := (Nat.sub_add_cancel h.two_le_size).symm
  rw [Graph.map_index_toList h.size_le, List.range_eq_range', two, List.range'_succ,
    List.range'_succ]
  rfl

/-- The nodes in ascending order, each with its role. -/
theorem map_role_toList (h : Built is g) :
    g.toList.map (fun p => (p.1.index, p.2.role)) =
      (0, .enter) :: (1, .exit) :: (List.range' 2 (g.size - 2)).map fun m => (m, .block) := by
  have role : ∀ p ∈ g.toList, (p.1.index, p.2.role) =
      (p.1.index, if p.1.index = 0 then .enter else if p.1.index = 1 then .exit else .block) := by
    intro p member
    rw [← Graph.vertexOf_eq ((Graph.mem_toList_iff h.size_le).mp member)]
    simp only [h.role_vertexOf, Key.ext_iff]
    rfl
  have paired : g.toList.map (fun p => (p.1.index, p.2.role)) =
      (g.toList.map (·.1.index)).map fun m =>
        (m, if m = 0 then .enter else if m = 1 then .exit else .block) := by
    rw [List.map_map]
    exact List.map_congr_left role
  rw [paired, h.map_index_toList, List.map_cons, List.map_cons, if_pos rfl,
    if_neg Nat.one_ne_zero, if_pos rfl]
  refine congrArg _ (congrArg _ (List.map_congr_left fun m member => ?_))
  have low : 2 ≤ m := (List.mem_range'_1.mp member).1
  rw [if_neg (by omega), if_neg (by omega)]

theorem length_blocks (h : Built is g) : g.blocks.length = g.size - 2 := by
  have numbers : g.blocks.length =
      (g.toList.map fun p => (p.1.index, p.2.role)).countP (·.2 == .block) := by
    rw [Graph.blocks, Graph.blockList, List.length_map, ← List.countP_eq_length_filter,
      List.countP_map]
    rfl
  rw [numbers, h.map_role_toList]
  simp [List.countP_map, Function.comp_def]

theorem size_eq_add (h : Built is g) :
    g.size = 2 + (targets is).length + (otherStarts is is.length).length := by
  rw [h.size_eq, (h.numbers_so_far (Nat.le_refl _)).1]

theorem blockOf?_eq_none (h : Built is g) {l : Label} (absent : l ∉ labels is) :
    g.blockOf? l = none := by
  rw [Graph.blockOf?, Option.map_eq_none_iff, List.find?_eq_none]
  rintro ⟨n, v⟩ member holds
  have read := (Graph.mem_toList_iff h.size_le).mp member
  rw [← Graph.vertexOf_eq read, h.holds_vertexOf] at holds
  obtain ⟨q, i, hq, carried, -⟩ := holds
  exact absent (mem_labels.mpr ⟨q, i, hq, carried⟩)

theorem heads_target (h : Built is g) {j : Nat} {l : Label} (hj : (targets is)[j]? = some l) :
    ∃ p i n, is[p]? = some i ∧ i.label = some l ∧ n.index = 2 + j ∧ Heads is g p n := by
  obtain ⟨p, i, hp, carried, starts, number⟩ := h.exists_start_of_target hj
  exact ⟨p, i, _, hp, carried, number, h.heads (List.getElem?_eq_some_iff.mp hp).1 starts⟩

theorem heads_other (h : Built is g) {j p : Nat} (hj : (otherStarts is is.length)[j]? = some p) :
    ∃ n, n.index = 2 + (targets is).length + j ∧ Heads is g p n := by
  have member := List.mem_filter.mp (List.mem_of_getElem? hj)
  have inside := List.mem_range.mp member.1
  have starts : startsBlock is p = true := (Bool.and_eq_true_iff.mp member.2).1
  refine ⟨blockAt is p, ?_, h.heads inside starts⟩
  have numbers := congrArg (·[j]?) (h.numbers_so_far (Nat.le_refl _)).2
  have small := (List.getElem?_eq_some_iff.mp hj).1
  simp only [List.getElem?_map, hj, Option.map_some, List.getElem?_range' small] at numbers
  simpa using numbers

theorem blockOf?_of_mem_labels (h : Built is g) {l : Label} (member : l ∈ labels is) :
    ∃ n ∈ g.blocks, g.blockOf? l = some n ∧ ∀ m v, g.get? m = some v →
      ((∃ i ∈ v.instructions, i.label = some l) ↔ m = n) := by
  obtain ⟨q, j, hq, carried⟩ := mem_labels.mp member
  have inside := (List.getElem?_eq_some_iff.mp hq).1
  refine ⟨blockAt is q, h.blockAt_mem_blocks inside, h.blockOf?_eq hq carried, ?_⟩
  intro m v read
  rw [← Graph.vertexOf_eq read]
  simp only [h.mem_instructions_iff]
  constructor
  · rintro ⟨i, ⟨p, hp, own⟩, carried'⟩
    rw [← own, h.position_unique hq carried hp carried']
  · rintro rfl
    exact ⟨j, ⟨q, hq, rfl⟩, carried⟩

end Built

/-- The numbers of the nodes of a built graph: those of the two outer nodes, those of
the blocks of targets, and those of all other blocks. -/
theorem nodes_numbered (short : is.length ≤ Key.count 32 - 2) (built : build is = .ok g) :
    ∃ (ts : List Label) (others : List Nat),
      InReferenceOrder is ts ∧ others.Pairwise (· < ·) ∧
      g.toList.map (fun p => (p.1.index, p.2.role)) =
        (0, .enter) :: (1, .exit) ::
          (List.range' 2 (ts.length + others.length)).map (fun m => (m, .block)) ∧
      (∀ j l, ts[j]? = some l →
        ∃ p i n, is[p]? = some i ∧ i.label = some l ∧ n.index = 2 + j ∧ Heads is g p n) ∧
      (∀ j p, others[j]? = some p → ∃ n, n.index = 2 + ts.length + j ∧ Heads is g p n) ∧
      (∀ n v, g.get? n = some v → v.instructions = heldFrom (blockAt is) n 0 is) ∧
      g.blocks.length = ts.length + others.length ∧ g.blocks.length ≤ is.length ∧
      (∀ l ∈ labels is, ∃ n ∈ g.blocks, g.blockOf? l = some n ∧ ∀ m v, g.get? m = some v →
        ((∃ i ∈ v.instructions, i.label = some l) ↔ m = n)) ∧
      ∀ l, l ∉ labels is → g.blockOf? l = none := by
  have h := Built.of_build short built
  have size := h.size_eq_add
  have blocks := h.length_blocks
  have count : g.size - 2 = (targets is).length + (otherStarts is is.length).length := by omega
  have few := fresh_cursorAt_le h.toWellLabelled is.length
  rw [← h.size_eq] at few
  refine ⟨targets is, otherStarts is is.length, h.inReferenceOrder, ?_, ?_,
    fun _ _ => h.heads_target, fun _ _ => h.heads_other, fun _ _ => h.instructions_of_get?,
    blocks.trans count, by omega, fun _ => h.blockOf?_of_mem_labels, fun _ => h.blockOf?_eq_none⟩
  · exact List.pairwise_lt_range.filter _
  · rw [← count]
    exact h.map_role_toList

theorem numbers_of_sampleLoop :
    sampleLoop.length ≤ Key.count 32 - 2 ∧ ∃ g, build sampleLoop = .ok g ∧
    (∃ (ts : List Label) (others : List Nat), InReferenceOrder sampleLoop ts ∧
      ts.length + others.length = 4 ∧
      ∀ j l, ts[j]? = some l → ∃ p n, n.index = 2 + j ∧ Heads sampleLoop g p n) ∧
    (∃ n ∈ g.blocks, g.blockOf? ⟨"end"⟩ = some n) ∧ g.blockOf? ⟨"dead"⟩ = none := by
  refine ⟨by decide, _, rfl, ?_⟩
  obtain ⟨ts, others, order, -, -, heads, -, -, count, -, held, free⟩ :=
    @nodes_numbered sampleLoop _ (by decide) rfl
  refine ⟨⟨ts, others, order, count.symm.trans (by decide), ?_⟩, ?_, free _ (by decide)⟩
  · intro j l hj
    obtain ⟨p, i, n, -, -, number, head⟩ := heads j l hj
    exact ⟨p, n, number, head⟩
  · obtain ⟨n, member, found, -⟩ := held ⟨"end"⟩ (by decide)
    exact ⟨n, member, found⟩

end Construction
end FlowGraph
