import FlowGraph.Proofs.Layout
import FlowGraph.Proofs.Replay
import Mathlib.Data.List.Nodup

/-! The vertices of a built graph, read off the layout of its instruction list:
how many there are, which instructions each one holds, and which edits gave it
its edges. -/
namespace FlowGraph

theorem Key.nodup_of_ascending {w : Nat} {ks : List (Key w)}
    (h : ks.Pairwise (·.index < ·.index)) : ks.Nodup := by
  apply h.imp
  intro a b less same
  rw [same] at less
  exact Nat.lt_irrefl _ less

theorem KeySet.nodup_toList {w : Nat} (s : KeySet w) : s.toList.Nodup :=
  Key.nodup_of_ascending s.ascending

namespace Table

variable {w : Nat} {α : Type} {t : Table w α}

theorem getElem?_values (t : Table w α) (i : Nat) : t.values[i]? = t.entries[i]? :=
  Array.getElem?_toList

/-- A table lists each entry that a key reads. -/
theorem mem_toList_of_get? {k : Key w} {a : α} (read : t.get? k = some a) : (k, a) ∈ t.toList := by
  have member : (a, k.index) ∈ t.values.zipIdx := by
    rw [List.mem_zipIdx_iff_getElem?, getElem?_values]
    exact read
  exact List.mem_map.mpr ⟨(a, k.index), member, congrArg (·, a) (Key.ofIndex_index k)⟩

/-- While keys last, a table lists each entry under the key that reads it. -/
theorem mem_toList_iff (small : t.size ≤ Key.count w) {k : Key w} {a : α} :
    (k, a) ∈ t.toList ↔ t.get? k = some a := by
  refine ⟨?_, mem_toList_of_get?⟩
  rw [toList, List.mem_map]
  rintro ⟨⟨b, i⟩, member, same⟩
  cases same
  have read := List.mem_zipIdx_iff_getElem?.mp member
  rw [getElem?_values] at read
  have inside : i < Key.count w := Nat.lt_of_lt_of_le (Array.getElem?_eq_some_iff.mp read).1 small
  rw [get?, Key.index_ofIndex_of_lt inside, read]

theorem ascending_keys (small : t.size ≤ Key.count w) :
    t.keys.Pairwise (·.index < ·.index) := by
  rw [keys, List.pairwise_map]
  apply List.pairwise_lt_range.imp_of_mem
  intro i j hi hj less
  rw [Key.index_ofIndex_of_lt (Nat.lt_of_lt_of_le (List.mem_range.mp hi) small),
    Key.index_ofIndex_of_lt (Nat.lt_of_lt_of_le (List.mem_range.mp hj) small)]
  exact less

theorem map_fst_toList (t : Table w α) : t.toList.map (·.1) = t.keys := by
  have length : t.values.length = t.size := Array.length_toList
  rw [toList, keys, List.map_map, ← length, List.range_eq_range', ← List.zipIdx_map_snd 0 t.values,
    List.map_map]
  rfl

end Table

namespace Graph

variable {g : Graph}

theorem mem_toList_iff (small : g.size ≤ Key.count 32) {n : Node} {v : Vertex} :
    (n, v) ∈ g.toList ↔ g.get? n = some v := Table.mem_toList_iff small

theorem mem_blocks_iff (small : g.size ≤ Key.count 32) {n : Node} :
    n ∈ g.blocks ↔ ∃ v, g.get? n = some v ∧ v.isBlock = true := by
  simp only [blocks, blockList, List.mem_map, List.mem_filter]
  constructor
  · rintro ⟨⟨m, v⟩, ⟨member, block⟩, rfl⟩
    exact ⟨v, (mem_toList_iff small).mp member, block⟩
  · rintro ⟨v, read, block⟩
    exact ⟨(n, v), ⟨(mem_toList_iff small).mpr read, block⟩, rfl⟩

theorem mem_edges_iff (small : g.size ≤ Key.count 32) {a b : Node} :
    (a, b) ∈ g.edges ↔ ∃ v, g.get? a = some v ∧ b ∈ v.succs := by
  simp only [edges, List.mem_flatMap, List.mem_map]
  constructor
  · rintro ⟨⟨n, v⟩, member, m, succ, same⟩
    cases same
    exact ⟨v, (mem_toList_iff small).mp member, succ⟩
  · rintro ⟨v, read, succ⟩
    exact ⟨(a, v), (mem_toList_iff small).mpr read, b, succ, rfl⟩

theorem ascending_blocks (small : g.size ≤ Key.count 32) :
    g.blocks.Pairwise (·.index < ·.index) := by
  have keys : (g.toList.map (·.1)).Pairwise (·.index < ·.index) := by
    rw [toList, Table.map_fst_toList]
    exact Table.ascending_keys small
  exact keys.sublist (List.filter_sublist.map _)

theorem nodup_blocks (small : g.size ≤ Key.count 32) : g.blocks.Nodup :=
  Key.nodup_of_ascending (ascending_blocks small)

end Graph

namespace Construction

variable {is : List Instruction} {g : Graph}

/-- The instructions of a stretch from position `p` on, as far as `B` assigns
their positions to a node. -/
def heldFrom (B : Nat → Node) (n : Node) (p : Nat) (stretch : List Instruction) :
    List Instruction :=
  ((stretch.zipIdx p).filter fun (_, q) => B q = n).map (·.1)

theorem heldFrom_cons (B : Nat → Node) (n : Node) (p : Nat) (i : Instruction)
    (rest : List Instruction) :
    heldFrom B n p (i :: rest) = (if B p = n then [i] else []) ++ heldFrom B n (p + 1) rest := by
  simp only [heldFrom, List.zipIdx_cons, List.filter_cons, decide_eq_true_eq]
  split <;> rfl

theorem heldFrom_cons_of_ne {B : Nat → Node} {n : Node} {p : Nat} (other : B p ≠ n)
    (i : Instruction) (rest : List Instruction) :
    heldFrom B n p (i :: rest) = heldFrom B n (p + 1) rest := by
  rw [heldFrom_cons, if_neg other, List.nil_append]

theorem heldFrom_append (B : Nat → Node) (n : Node) (p : Nat) (xs ys : List Instruction) :
    heldFrom B n p (xs ++ ys) = heldFrom B n p xs ++ heldFrom B n (p + xs.length) ys := by
  rw [heldFrom, List.zipIdx_append, List.filter_append, List.map_append]
  rfl

theorem heldFrom_eq_nil {B : Nat → Node} {n : Node} {p : Nat} {xs : List Instruction}
    (h : ∀ q, p ≤ q → q < p + xs.length → B q ≠ n) : heldFrom B n p xs = [] := by
  rw [heldFrom, List.map_eq_nil_iff, List.filter_eq_nil_iff]
  rintro ⟨i, q⟩ member
  obtain ⟨low, high, _⟩ := List.mem_zipIdx member
  simpa using h q low high

theorem heldFrom_eq_flatMap (B : Nat → Node) (n : Node) (p : Nat) (xs : List Instruction) :
    heldFrom B n p xs = (xs.zipIdx p).flatMap fun (i, q) => if B q = n then [i] else [] := by
  induction xs generalizing p with
  | nil => rfl
  | cons i rest ih => rw [heldFrom_cons, List.zipIdx_cons, List.flatMap_cons, ih]

theorem mem_heldFrom {B : Nat → Node} {n : Node} {i : Instruction} :
    i ∈ heldFrom B n 0 is ↔ ∃ p : Nat, is[p]? = some i ∧ B p = n := by
  simp only [heldFrom, List.mem_map, List.mem_filter, decide_eq_true_eq]
  constructor
  · rintro ⟨⟨j, p⟩, ⟨member, own⟩, rfl⟩
    exact ⟨p, List.mem_zipIdx_iff_getElem?.mp member, own⟩
  · rintro ⟨p, hp, own⟩
    exact ⟨(i, p), ⟨List.mem_zipIdx_iff_getElem?.mpr hp, own⟩, rfl⟩

theorem linkEdits_eq {p : Nat} {rest : List Instruction} (dropped : is.drop p = rest) :
    linkEdits (targets is) (cursorAt is p) rest =
      ((rest.zipIdx p).flatMap fun (i, q) => instructionEdits (targets is) (cursorAt is q) i) ++
        [.connect (cursorAt is is.length).current .exit] := by
  induction rest generalizing p with
  | nil =>
      have past : is.length ≤ p := List.drop_eq_nil_iff.mp dropped
      have same : cursorAt is p = cursorAt is is.length := by
        rw [cursorAt, cursorAt, List.take_of_length_le past, List.take_length]
      rw [linkEdits, same]
      rfl
  | cons i rest ih =>
      have hp : is[p]? = some i := by rw [← List.head?_drop, dropped, List.head?_cons]
      have next : is.drop (p + 1) = rest := by rw [← List.tail_drop, dropped, List.tail_cons]
      rw [linkEdits, ← cursorAt_succ hp, ih next, List.zipIdx_cons, List.flatMap_cons,
        List.append_assoc]

/-- All edits: those for the targets, then those of each position, then the way out. -/
theorem edits_eq (is : List Instruction) :
    edits is = targetEdits (targets is) ++
      ((is.zipIdx.flatMap fun (i, p) => instructionEdits (targets is) (cursorAt is p) i) ++
        [.connect (cursorAt is is.length).current .exit]) := by
  rw [edits, ← linkEdits_eq List.drop_zero]
  rfl

theorem placed_targetEdits (n : Node) (ts : List Label) : placed n (targetEdits ts) = [] := by
  rw [placed, List.filterMap_eq_nil_iff]
  intro e member
  obtain ⟨⟨l, j⟩, _, member⟩ := List.mem_flatMap.mp member
  simp only [List.mem_cons, List.not_mem_nil, or_false] at member
  rcases member with rfl | rfl <;> rfl

theorem connect_not_mem_targetEdits (a b : Node) (ts : List Label) :
    .connect a b ∉ targetEdits ts := by
  intro member
  obtain ⟨⟨l, j⟩, _, member⟩ := List.mem_flatMap.mp member
  simp at member

theorem placed_fallThrough (n m : Node) (c : Cursor) : placed n (c.fallThrough m) = [] := by
  rw [Cursor.fallThrough]
  split <;> rfl

theorem placed_instructionEdits (n : Node) {p : Nat} {i : Instruction} (hp : is[p]? = some i) :
    placed n (instructionEdits (targets is) (cursorAt is p) i) =
      if blockAt is p = n then [i] else [] := by
  have jumps : ∀ (m : Node) (o : Option Node),
      (o.toList.map (Edit.connect m)).filterMap (Edit.placedIn? n) = [] := by
    intro m o
    cases o <;> rfl
  have opens : ∀ (c : Cursor) (o : Opening), placed n (c.openingEdits o) = [] := by
    intro c o
    cases o with
    | stay => rfl
    | target m => exact placed_fallThrough n m c
    | fresh => exact placed_fallThrough n _ c
  rw [instructionEdits, placed_append, opens, List.nil_append, placed, List.filterMap_cons,
    Edit.placedIn?, ← blockAt_eq hp, jumps]
  split <;> simp_all

theorem placed_edits (n : Node) (is : List Instruction) :
    placed n (edits is) = heldFrom (blockAt is) n 0 is := by
  have each : ∀ x ∈ is.zipIdx, placed n (instructionEdits (targets is) (cursorAt is x.2) x.1) =
      if blockAt is x.2 = n then [x.1] else [] := by
    rintro ⟨i, p⟩ member
    exact placed_instructionEdits n (List.mem_zipIdx_iff_getElem?.mp member)
  have wayOut : placed n [.connect (cursorAt is is.length).current .exit] = [] := rfl
  rw [edits_eq, placed_append, placed_append, placed_targetEdits, wayOut, List.nil_append,
    List.append_nil, placed, List.filterMap_flatMap, heldFrom_eq_flatMap]
  exact List.flatMap_congr each

theorem connect_mem_openingEdits {a b : Node} {c : Cursor} {o : Opening} :
    .connect a b ∈ c.openingEdits o ↔
      o ≠ .stay ∧ c.boundary.falls = true ∧ a = c.current ∧ b = c.nodeAt o := by
  cases o with
  | stay => simp [Cursor.openingEdits]
  | target m => simp [Cursor.openingEdits, Cursor.fallThrough, Cursor.nodeAt]
  | fresh => simp [Cursor.openingEdits, Cursor.fallThrough, Cursor.nodeAt]

theorem connect_mem_instructionEdits {a b : Node} (h : WellLabelled is) {p : Nat}
    {i : Instruction} (hp : is[p]? = some i) :
    .connect a b ∈ instructionEdits (targets is) (cursorAt is p) i ↔
      (startsBlock is p = true ∧ (cursorAt is p).boundary.falls = true ∧
        a = (cursorAt is p).current ∧ b = blockAt is p) ∨
      (a = blockAt is p ∧ jump? (targets is) i.op = some b) := by
  have opened : opening (targets is) (cursorAt is p).boundary i ≠ .stay ↔
      startsBlock is p = true := by
    have op := opens h hp
    generalize opening (targets is) (cursorAt is p).boundary i = o at op
    cases op with
    | target _ _ _ starts => simp [starts]
    | fresh _ starts => simp [starts]
    | stay _ goesOn => simp [goesOn]
  simp only [instructionEdits, List.mem_append, connect_mem_openingEdits, opened, ← blockAt_eq hp,
    List.mem_cons, List.mem_map, Option.mem_toList, Edit.connect.injEq, reduceCtorEq, false_or]
  refine or_congr Iff.rfl ?_
  constructor
  · rintro ⟨m, jumps, rfl, rfl⟩
    exact ⟨rfl, jumps⟩
  · rintro ⟨rfl, jumps⟩
    exact ⟨b, jumps, rfl, rfl⟩

/-- Where edges come from: control falls into a block that starts, jumps, or
leaves after the last position. -/
theorem connect_mem_edits (h : WellLabelled is) {a b : Node} :
    .connect a b ∈ edits is ↔
      (∃ (p : Nat) (i : Instruction), is[p]? = some i ∧
        ((startsBlock is p = true ∧ (cursorAt is p).boundary.falls = true ∧
          a = (cursorAt is p).current ∧ b = blockAt is p) ∨
        (a = blockAt is p ∧ jump? (targets is) i.op = some b))) ∨
      (a = (cursorAt is is.length).current ∧ b = .exit) := by
  simp only [edits_eq, List.mem_append, connect_not_mem_targetEdits, false_or, List.mem_flatMap,
    List.mem_singleton, Edit.connect.injEq]
  refine or_congr ?_ Iff.rfl
  constructor
  · rintro ⟨⟨i, p⟩, member, edge⟩
    have hp := List.mem_zipIdx_iff_getElem?.mp member
    exact ⟨p, i, hp, (connect_mem_instructionEdits h hp).mp edge⟩
  · rintro ⟨p, i, hp, edge⟩
    have found := (connect_mem_instructionEdits h hp).mpr edge
    exact ⟨(i, p), List.mem_zipIdx_iff_getElem?.mpr hp, found⟩

theorem countP_openingEdits (c : Cursor) (o : Opening) :
    c.fresh + (c.openingEdits o).countP Edit.isAllocate = c.freshAfter o := by
  have falls : ∀ m, (c.fallThrough m).countP Edit.isAllocate = 0 := by
    intro m
    rw [Cursor.fallThrough]
    split <;> rfl
  cases o with
  | stay => rfl
  | target m => rw [Cursor.openingEdits, falls]; rfl
  | fresh => rw [Cursor.openingEdits, List.countP_cons, falls]; rfl

theorem countP_instructionEdits (ts : List Label) (c : Cursor) (i : Instruction) :
    c.fresh + (instructionEdits ts c i).countP Edit.isAllocate = (c.advance ts i).fresh := by
  have jumps : ∀ (m : Node) (o : Option Node),
      (o.toList.map (Edit.connect m)).countP Edit.isAllocate = 0 := by
    intro m o
    cases o <;> rfl
  rw [instructionEdits, List.countP_append, List.countP_cons, jumps, ← Nat.add_assoc,
    countP_openingEdits]
  rfl

theorem countP_linkEdits (ts : List Label) (c : Cursor) (is : List Instruction) :
    c.fresh + (linkEdits ts c is).countP Edit.isAllocate =
      (is.foldl (Cursor.advance ts) c).fresh := by
  induction is generalizing c with
  | nil => rfl
  | cons i rest ih =>
      rw [linkEdits, List.countP_append, ← Nat.add_assoc, countP_instructionEdits, ih]
      rfl

theorem countP_targetEdits (ts : List Label) :
    (targetEdits ts).countP Edit.isAllocate = ts.length := by
  rw [targetEdits]
  generalize 0 = first
  induction ts generalizing first with
  | nil => rfl
  | cons l ts ih =>
      rw [List.zipIdx_cons, List.flatMap_cons, List.countP_append, ih, List.length_cons,
        Nat.add_comm]
      rfl

/-- A graph made from a list that is admissible. -/
structure Built (is : List Instruction) (g : Graph) : Prop extends Admissible is where
  replayed : replay? .initial (edits is) = some g

theorem Built.of_build (short : is.length ≤ Key.count 32 - 2) (built : build is = .ok g) :
    Built is g :=
  ⟨⟨(build_eq_ok built).1, short⟩, (build_eq_ok built).2⟩

/-- A loop that is left from its head, and code behind it that nothing leads to. -/
def sampleLoop : List Instruction :=
  [⟨some ⟨"head"⟩, .branch "done" ⟨"end"⟩⟩, ⟨none, .plain "work"⟩, ⟨none, .goto ⟨"head"⟩⟩,
    ⟨none, .plain "dead"⟩, ⟨some ⟨"end"⟩, .ret none⟩]

theorem two_le_index_iff {n : Node} : 2 ≤ n.index ↔ n ≠ .enter ∧ n ≠ .exit := by
  constructor
  · intro le
    constructor
    · rintro rfl
      exact absurd le (by decide)
    · rintro rfl
      exact absurd le (by decide)
  · rintro ⟨enter, exit⟩
    have notZero : n.index ≠ 0 := fun same => enter (Key.ext same)
    have notOne : n.index ≠ 1 := fun same => exit (Key.ext same)
    omega

theorem role_initial (n : Node) : (Graph.initial.vertexOf n).role =
    if n = .enter then .enter else if n = .exit then .exit else .block := by
  split
  · next same => rw [same]; rfl
  · next enter =>
      split
      · next same => rw [same]; rfl
      · next exit =>
          have past : Graph.initial.get? n = none :=
            Array.getElem?_eq_none (two_le_index_iff.mpr ⟨enter, exit⟩)
          rw [Graph.vertexOf, past]
          rfl

theorem contents_initial (n : Node) :
    (Graph.initial.vertexOf n).instructions = [] ∧ (Graph.initial.vertexOf n).preds = ∅ ∧
      (Graph.initial.vertexOf n).succs = ∅ := by
  obtain ⟨index, lt⟩ := n
  match index with
  | 0 => exact ⟨rfl, rfl, rfl⟩
  | 1 => exact ⟨rfl, rfl, rfl⟩
  | index + 2 => exact ⟨rfl, rfl, rfl⟩

namespace Built

theorem size_eq (h : Built is g) : g.size = (cursorAt is is.length).fresh := by
  have links := countP_linkEdits (targets is) (.start (targets is).length) is
  rw [replay?_size h.replayed, edits, List.countP_append, countP_targetEdits, cursorAt,
    List.take_length, ← links, ← Nat.add_assoc]
  rfl

theorem size_le (h : Built is g) : g.size ≤ Key.count 32 := by
  rw [h.size_eq]
  exact h.fresh_le is.length

theorem two_le_size (h : Built is g) : 2 ≤ g.size := by
  have := two_add_targets_le_fresh is is.length
  rw [h.size_eq]
  omega

theorem role_vertexOf (h : Built is g) (n : Node) :
    (g.vertexOf n).role = if n = .enter then .enter else if n = .exit then .exit else .block := by
  rw [(replay?_grown h.replayed n).role, role_initial]

theorem instructions_vertexOf (h : Built is g) (n : Node) :
    (g.vertexOf n).instructions = heldFrom (blockAt is) n 0 is := by
  rw [(replay?_grown h.replayed n).instructions, (contents_initial n).1, placed_edits,
    List.nil_append]

theorem instructions_of_get? (h : Built is g) {n : Node} {v : Vertex} (read : g.get? n = some v) :
    v.instructions = heldFrom (blockAt is) n 0 is := by
  rw [← Graph.vertexOf_eq read, h.instructions_vertexOf]

theorem mem_instructions_iff (h : Built is g) {n : Node} {i : Instruction} :
    i ∈ (g.vertexOf n).instructions ↔ ∃ p : Nat, is[p]? = some i ∧ blockAt is p = n := by
  rw [h.instructions_vertexOf, mem_heldFrom]

/-- The two outer nodes hold nothing. -/
theorem instructions_of_index_lt (h : Built is g) {n : Node} (low : n.index < 2) :
    (g.vertexOf n).instructions = [] := by
  rw [h.instructions_vertexOf]
  refine heldFrom_eq_nil fun q _ inside => ?_
  rintro rfl
  have := (h.index_blockAt_lt (by omega : q < is.length)).1
  omega

theorem mem_succs_vertexOf (h : Built is g) {n m : Node} :
    m ∈ (g.vertexOf n).succs ↔ .connect n m ∈ edits is := by
  rw [(replay?_grown h.replayed n).succs, (contents_initial n).2.2]
  exact or_iff_right (KeySet.not_mem_empty m)

theorem mem_preds_vertexOf (h : Built is g) {n m : Node} :
    m ∈ (g.vertexOf n).preds ↔ .connect m n ∈ edits is := by
  rw [(replay?_grown h.replayed n).preds, (contents_initial n).2.1]
  exact or_iff_right (KeySet.not_mem_empty m)

theorem isBlock_vertexOf (h : Built is g) (n : Node) :
    (g.vertexOf n).isBlock = true ↔ 2 ≤ n.index := by
  rw [Vertex.isBlock, h.role_vertexOf, two_le_index_iff]
  by_cases enter : n = .enter
  · simp [enter]
  · rw [if_neg enter]
    by_cases exit : n = .exit
    · simp [exit]
    · simp [enter, exit]

theorem get?_blockAt (h : Built is g) {p : Nat} (inside : p < is.length) :
    g.get? (blockAt is p) = some (g.vertexOf (blockAt is p)) := by
  have bound := (h.index_blockAt_lt inside).2
  have mono := fresh_cursorAt_mono is (Nat.succ_le_of_lt inside)
  refine Graph.get?_eq_some_vertexOf ?_
  rw [h.size_eq]
  exact Nat.lt_of_lt_of_le bound mono

theorem holds_vertexOf (h : Built is g) {n : Node} {l : Label} :
    (g.vertexOf n).holds l = true ↔
      ∃ (p : Nat) (i : Instruction), is[p]? = some i ∧ i.label = some l ∧ blockAt is p = n := by
  simp only [Vertex.holds, List.any_eq_true, h.mem_instructions_iff, beq_iff_eq]
  constructor
  · rintro ⟨i, ⟨p, hp, own⟩, carried⟩
    exact ⟨p, i, hp, carried, own⟩
  · rintro ⟨p, i, hp, carried, own⟩
    exact ⟨i, ⟨p, hp, own⟩, carried⟩

/-- A label is found in the block of the position that carries it, and nowhere before. -/
theorem blockOf?_eq (h : Built is g) {q : Nat} {j : Instruction} {l : Label} (hq : is[q]? = some j)
    (carried : j.label = some l) : g.blockOf? l = some (blockAt is q) := by
  have inside := (List.getElem?_eq_some_iff.mp hq).1
  have held := h.holds_vertexOf.mpr ⟨q, j, hq, carried, rfl⟩
  rw [Graph.blockOf?]
  cases found : g.toList.find? (fun p => p.2.holds l) with
  | none =>
      have listed := (Graph.mem_toList_iff h.size_le).mpr (h.get?_blockAt inside)
      exact absurd held (List.find?_eq_none.mp found _ listed)
  | some p =>
      have read := (Graph.mem_toList_iff h.size_le).mp (List.mem_of_find?_eq_some found)
      have holds := List.find?_some found
      rw [← Graph.vertexOf_eq read, h.holds_vertexOf] at holds
      obtain ⟨q', j', hq', carried', own⟩ := holds
      rw [Option.map_some, ← own, h.position_unique hq carried hq' carried']

/-- The blocks of the graph are the nodes at which positions start a block. -/
theorem mem_blocks_iff_starts (h : Built is g) {n : Node} :
    n ∈ g.blocks ↔ ∃ p, p < is.length ∧ startsBlock is p = true ∧ blockAt is p = n := by
  rw [Graph.mem_blocks_iff h.size_le]
  constructor
  · rintro ⟨v, read, block⟩
    have inside := Graph.lt_size_of_get? read
    rw [← Graph.vertexOf_eq read, h.isBlock_vertexOf] at block
    rw [h.size_eq] at inside
    obtain ⟨p, hp, starts, number⟩ := h.exists_start_of_index block inside
    exact ⟨p, hp, starts, Key.ext number⟩
  · rintro ⟨p, inside, starts, rfl⟩
    exact ⟨_, h.get?_blockAt inside, (h.isBlock_vertexOf _).mpr (h.index_blockAt_lt inside).1⟩

theorem blockAt_mem_blocks (h : Built is g) {p : Nat} (inside : p < is.length) :
    blockAt is p ∈ g.blocks := by
  obtain ⟨s, le, starts, same, -⟩ := h.exists_start inside
  exact h.mem_blocks_iff_starts.mpr ⟨s, Nat.lt_of_le_of_lt le inside, starts, same⟩

end Built

end Construction
end FlowGraph
