import FlowGraph.Proofs.Labels
import Mathlib.Data.List.Perm.Subperm

/-! Which block holds which position. Construction walks along the list with a
cursor; the cursor before each position tells the node that the position's
instruction goes into. Positions that start a block are described without the
cursor, and the two descriptions are tied together: a block starts exactly
there, blocks that start at different places are different nodes, and the
nodes are numbered without a gap. -/
namespace FlowGraph.Construction

variable {is : List Instruction}

/-- The label of an instruction is the target of some branch of the list. -/
def isTargeted (is : List Instruction) (i : Instruction) : Bool :=
  i.label.any (references is).contains

theorem isTargeted_of_mem {i : Instruction} {l : Label} (carried : i.label = some l)
    (member : l ∈ references is) : isTargeted is i = true := by
  rw [isTargeted, carried, Option.any_some]
  exact List.contains_iff_mem.mpr member

/-- A block starts at the first position, at a branch target, and after a
branch or a return. -/
def startsBlock (is : List Instruction) : Nat → Bool
  | 0 => true
  | p + 1 => is[p + 1]?.any (isTargeted is) || is[p]?.any (·.isTerminator)

/-- No later position belongs to the block of this one. -/
def endsBlock (is : List Instruction) (p : Nat) : Bool :=
  p + 1 == is.length || startsBlock is (p + 1)

/-- The cursor before a position. -/
def cursorAt (is : List Instruction) (p : Nat) : Cursor :=
  (is.take p).foldl (Cursor.advance (targets is)) (.start (targets is).length)

/-- The block that holds a position. -/
def blockAt (is : List Instruction) (p : Nat) : Node := (cursorAt is (p + 1)).current

theorem cursorAt_zero (is : List Instruction) : cursorAt is 0 = .start (targets is).length := rfl

theorem cursorAt_succ {p : Nat} {i : Instruction} (hp : is[p]? = some i) :
    cursorAt is (p + 1) = (cursorAt is p).advance (targets is) i := by
  rw [cursorAt, List.take_add_one, hp, List.foldl_append]
  rfl

theorem cursorAt_succ_of_none {p : Nat} (hp : is[p]? = none) :
    cursorAt is (p + 1) = cursorAt is p := by
  rw [cursorAt, List.take_add_one, hp, Option.toList_none, List.append_nil, cursorAt]

theorem boundary_cursorAt_succ {p : Nat} {i : Instruction} (hp : is[p]? = some i) :
    (cursorAt is (p + 1)).boundary = .after i.op := by
  rw [cursorAt_succ hp]
  rfl

theorem after_cuts (i : Instruction) : (Boundary.after i.op).cuts = i.isTerminator := by
  obtain ⟨label, op⟩ := i
  cases op <;> rfl

theorem after_falls (op : Op) : (Boundary.after op).falls = Machine.goesOn op := by
  cases op <;> rfl

theorem cuts_cursorAt {p : Nat} (hp : p < is.length) :
    (cursorAt is p).boundary.cuts = (decide (p = 0) || (is[p - 1]?).any (·.isTerminator)) := by
  cases p with
  | zero => rfl
  | succ q =>
      have hq : is[q]? = some is[q] := List.getElem?_eq_getElem (Nat.lt_of_succ_lt hp)
      rw [boundary_cursorAt_succ hq, after_cuts, Nat.add_sub_cancel, hq]
      rfl

theorem targetNode?_isSome_iff {ts : List Label} {l : Label} :
    (targetNode? ts l).isSome ↔ l ∈ ts := by
  rw [targetNode?, Option.isSome_map, List.isSome_idxOf?]

/-- What construction does at a position, told by where blocks start. -/
inductive Opens (is : List Instruction) (p : Nat) (i : Instruction) : Opening → Prop where
  | target {l : Label} {j : Nat} : i.label = some l → (targets is).idxOf? l = some j →
      isTargeted is i = true → startsBlock is p = true →
        Opens is p i (.target (Node.ofIndex (2 + j)))
  | fresh : isTargeted is i = false → startsBlock is p = true → Opens is p i .fresh
  | stay : isTargeted is i = false → startsBlock is p = false → Opens is p i .stay

theorem startsBlock_of_targeted {p : Nat} {i : Instruction} (hp : is[p]? = some i)
    (targeted : isTargeted is i = true) : startsBlock is p = true := by
  cases p with
  | zero => rfl
  | succ q => rw [startsBlock, hp, Option.any_some, targeted, Bool.true_or]

theorem startsBlock_of_not_targeted {p : Nat} {i : Instruction} (hp : is[p]? = some i)
    (free : isTargeted is i = false) : startsBlock is p = (cursorAt is p).boundary.cuts := by
  have inside : p < is.length := (List.getElem?_eq_some_iff.mp hp).1
  rw [cuts_cursorAt inside]
  cases p with
  | zero => rfl
  | succ q =>
      rw [startsBlock, hp, Option.any_some, free]
      rfl

theorem opens (h : WellLabelled is) {p : Nat} {i : Instruction} (hp : is[p]? = some i) :
    Opens is p i (opening (targets is) (cursorAt is p).boundary i) := by
  cases found : i.label.bind (targetNode? (targets is)) with
  | some node =>
      obtain ⟨l, carried, isTarget⟩ := Option.bind_eq_some_iff.mp found
      obtain ⟨j, index, rfl⟩ := Option.map_eq_some_iff.mp isTarget
      have member : l ∈ references is :=
        h.mem_targets.mp (targetNode?_isSome_iff.mp (Option.isSome_of_eq_some isTarget))
      have targeted : isTargeted is i = true := isTargeted_of_mem carried member
      rw [opening, found]
      exact .target carried index targeted (startsBlock_of_targeted hp targeted)
  | none =>
      have free : isTargeted is i = false := by
        cases carried : i.label with
        | none => rw [isTargeted, carried, Option.any_none]
        | some l =>
            rw [carried, Option.bind_some] at found
            have absent : l ∉ references is := by
              intro member
              have present := targetNode?_isSome_iff.mpr (h.mem_targets.mpr member)
              rw [found] at present
              cases present
            simpa [isTargeted, carried] using absent
      have cuts := startsBlock_of_not_targeted hp free
      rw [opening, found]
      cases same : (cursorAt is p).boundary.cuts with
      | true => exact .fresh free (cuts.trans same)
      | false => exact .stay free (cuts.trans same)

theorem blockAt_eq {p : Nat} {i : Instruction} (hp : is[p]? = some i) :
    blockAt is p =
      (cursorAt is p).nodeAt (opening (targets is) (cursorAt is p).boundary i) := by
  rw [blockAt, cursorAt_succ hp]
  rfl

theorem fresh_cursorAt_succ {p : Nat} {i : Instruction} (hp : is[p]? = some i) :
    (cursorAt is (p + 1)).fresh =
      (cursorAt is p).freshAfter (opening (targets is) (cursorAt is p).boundary i) := by
  rw [cursorAt_succ hp]
  rfl

theorem Cursor.le_freshAfter (c : Cursor) (o : Opening) : c.fresh ≤ c.freshAfter o := by
  cases o with
  | stay => exact Nat.le_refl _
  | target node => exact Nat.le_refl _
  | fresh => exact Nat.le_succ _

theorem fresh_cursorAt_mono (is : List Instruction) {p q : Nat} (le : p ≤ q) :
    (cursorAt is p).fresh ≤ (cursorAt is q).fresh := by
  induction le with
  | refl => exact Nat.le_refl _
  | @step q _ ih =>
      refine Nat.le_trans ih ?_
      cases hq : is[q]? with
      | none => rw [cursorAt_succ_of_none hq]
      | some i =>
          rw [fresh_cursorAt_succ hq]
          exact Cursor.le_freshAfter _ _

/-- A position takes up a new node or meets a target, but not both. -/
theorem fresh_cursorAt_add_le (h : WellLabelled is) (p : Nat) :
    (cursorAt is p).fresh + (is.take p).countP (isTargeted is) ≤ 2 + (targets is).length + p := by
  induction p with
  | zero => simp [cursorAt_zero, Cursor.start]
  | succ p ih =>
      cases hp : is[p]? with
      | none =>
          rw [cursorAt_succ_of_none hp, List.take_add_one, hp, Option.toList_none, List.append_nil]
          omega
      | some i =>
          rw [fresh_cursorAt_succ hp, List.take_add_one, hp, List.countP_append]
          have op := opens h hp
          cases opened : opening (targets is) (cursorAt is p).boundary i with
          | stay =>
              rw [opened] at op
              cases op with
              | stay free _ =>
                  simp only [Cursor.freshAfter, Option.toList_some, List.countP_singleton, free,
                    Bool.false_eq_true, if_false]
                  omega
          | fresh =>
              rw [opened] at op
              cases op with
              | fresh free _ =>
                  simp only [Cursor.freshAfter, Option.toList_some, List.countP_singleton, free,
                    Bool.false_eq_true, if_false]
                  omega
          | target node =>
              have one : [i].countP (isTargeted is) ≤ 1 := List.countP_le_length
              simp only [Cursor.freshAfter, Option.toList_some]
              omega

/-- Every target is carried by an instruction of its own. -/
theorem length_targets_le (h : WellLabelled is) :
    (targets is).length ≤ is.countP (isTargeted is) := by
  have inside : targets is ⊆ (is.filter (isTargeted is)).filterMap (·.label) := by
    intro l member
    have referred : l ∈ references is := h.mem_targets.mp member
    obtain ⟨i, hi, carried⟩ := List.mem_filterMap.mp (h.defined l referred)
    have targeted : isTargeted is i = true := isTargeted_of_mem carried referred
    exact List.mem_filterMap.mpr ⟨i, List.mem_filter.mpr ⟨hi, targeted⟩, carried⟩
  calc (targets is).length
      ≤ ((is.filter (isTargeted is)).filterMap (·.label)).length :=
        (h.nodup_targets.subperm inside).length_le
    _ ≤ (is.filter (isTargeted is)).length := List.length_filterMap_le _ _
    _ = is.countP (isTargeted is) := List.countP_eq_length_filter.symm

theorem fresh_cursorAt_le (h : WellLabelled is) (p : Nat) :
    (cursorAt is p).fresh ≤ is.length + 2 := by
  have whole := fresh_cursorAt_add_le h is.length
  have enough := length_targets_le h
  rw [List.take_length] at whole
  rcases Nat.le_total p is.length with le | ge
  · have mono := fresh_cursorAt_mono is le
    omega
  · have same : cursorAt is p = cursorAt is is.length := by
      rw [cursorAt, cursorAt, List.take_of_length_le ge, List.take_length]
    rw [same]
    omega

theorem two_add_targets_le_fresh (is : List Instruction) (p : Nat) :
    2 + (targets is).length ≤ (cursorAt is p).fresh :=
  fresh_cursorAt_mono is (Nat.zero_le p)

/-- A well labelled list that is short enough for all its blocks to get nodes. -/
structure Admissible (is : List Instruction) : Prop extends WellLabelled is where
  short : is.length ≤ Key.count 32 - 2

/-- The number of the block at a position, by the way the position is opened. -/
inductive Numbering (is : List Instruction) (p : Nat) (i : Instruction) : Prop where
  | target {l : Label} {j : Nat} : i.label = some l → (targets is).idxOf? l = some j →
      startsBlock is p = true → (blockAt is p).index = 2 + j →
      (cursorAt is (p + 1)).fresh = (cursorAt is p).fresh → Numbering is p i
  | fresh : isTargeted is i = false → startsBlock is p = true →
      (blockAt is p).index = (cursorAt is p).fresh →
      (cursorAt is (p + 1)).fresh = (cursorAt is p).fresh + 1 → Numbering is p i
  | stay {q : Nat} : p = q + 1 → startsBlock is p = false → blockAt is p = blockAt is q →
      (cursorAt is (p + 1)).fresh = (cursorAt is p).fresh → Numbering is p i

theorem lt_length_of_idxOf? {ts : List Label} {l : Label} {j : Nat} (h : ts.idxOf? l = some j) :
    j < ts.length := (List.findIdx?_eq_some_iff_getElem.mp h).1

theorem getElem?_of_idxOf? {ts : List Label} {l : Label} {j : Nat} (h : ts.idxOf? l = some j) :
    ts[j]? = some l := by
  obtain ⟨inside, same, _⟩ := List.findIdx?_eq_some_iff_getElem.mp h
  rw [List.getElem?_eq_getElem inside, beq_iff_eq.mp same]

namespace Admissible

theorem fresh_le (h : Admissible is) (p : Nat) : (cursorAt is p).fresh ≤ Key.count 32 := by
  have le := fresh_cursorAt_le h.toWellLabelled p
  have short := h.short
  have enough : 2 ≤ Key.count 32 := by decide
  omega

theorem index_target (h : Admissible is) {l : Label} {j : Nat}
    (index : (targets is).idxOf? l = some j) : (Node.ofIndex (2 + j)).index = 2 + j := by
  have inside := lt_length_of_idxOf? index
  have first := two_add_targets_le_fresh is 0
  have last := h.fresh_le 0
  exact Key.index_ofIndex_of_lt (by omega)

theorem numbering (h : Admissible is) {p : Nat} {i : Instruction} (hp : is[p]? = some i) :
    Numbering is p i := by
  have op := opens h.toWellLabelled hp
  have node := blockAt_eq hp
  have next := fresh_cursorAt_succ hp
  cases opened : opening (targets is) (cursorAt is p).boundary i with
  | target n =>
      rw [opened] at op node next
      cases op with
      | target carried index _ starts =>
          refine .target carried index starts ?_ next
          rw [node]
          exact h.index_target index
  | fresh =>
      rw [opened] at op node next
      cases op with
      | fresh free starts =>
          refine .fresh free starts ?_ next
          have last := h.fresh_le (p + 1)
          rw [next] at last
          rw [node]
          exact Key.index_ofIndex_of_lt last
  | stay =>
      rw [opened] at op node next
      cases op with
      | stay free starts =>
          cases p with
          | zero => cases starts
          | succ q => exact .stay rfl starts node next

theorem blockAt_of_not_starts (h : Admissible is) {p : Nat} (inside : p + 1 < is.length)
    (goesOn : startsBlock is (p + 1) = false) : blockAt is (p + 1) = blockAt is p := by
  cases h.numbering (List.getElem?_eq_getElem inside) with
  | target _ _ starts _ _ => rw [starts] at goesOn; cases goesOn
  | fresh _ starts _ _ => rw [starts] at goesOn; cases goesOn
  | stay before _ same _ => cases before; exact same

theorem index_blockAt_lt (h : Admissible is) {p : Nat} (inside : p < is.length) :
    2 ≤ (blockAt is p).index ∧ (blockAt is p).index < (cursorAt is (p + 1)).fresh := by
  have first := two_add_targets_le_fresh is
  induction p with
  | zero =>
      cases h.numbering (List.getElem?_eq_getElem inside) with
      | target _ index _ number _ =>
          have := lt_length_of_idxOf? index
          have := first (0 + 1)
          omega
      | fresh _ _ number next =>
          have := first 0
          omega
      | stay before _ _ _ => cases before
  | succ p ih =>
      cases h.numbering (List.getElem?_eq_getElem inside) with
      | target _ index _ number _ =>
          have := lt_length_of_idxOf? index
          have := first (p + 1 + 1)
          omega
      | fresh _ _ number next =>
          have := first (p + 1)
          omega
      | stay before _ same _ =>
          cases before
          have earlier := ih (Nat.lt_of_succ_lt inside)
          have mono := fresh_cursorAt_mono is (Nat.le_succ (p + 1))
          rw [same]
          exact ⟨earlier.1, Nat.lt_of_lt_of_le earlier.2 mono⟩

/-- Different places that start a block start different blocks. -/
theorem starts_apart (h : Admissible is) {p q : Nat} (less : p < q) (inside : q < is.length)
    (hp : startsBlock is p = true) (hq : startsBlock is q = true) :
    blockAt is p ≠ blockAt is q := by
  intro same
  have before : p < is.length := Nat.lt_trans less inside
  have bound := (h.index_blockAt_lt before).2
  have mono : (cursorAt is (p + 1)).fresh ≤ (cursorAt is q).fresh := fresh_cursorAt_mono is less
  have atP := List.getElem?_eq_getElem before
  have atQ := List.getElem?_eq_getElem inside
  cases h.numbering atQ with
  | stay _ stays _ _ => rw [stays] at hq; cases hq
  | fresh _ _ number _ =>
      rw [same, number] at bound
      omega
  | target carried index _ number _ =>
      cases h.numbering atP with
      | stay _ stays _ _ => rw [stays] at hp; cases hp
      | fresh _ _ number' _ =>
          have := lt_length_of_idxOf? index
          have := two_add_targets_le_fresh is p
          rw [same] at number'
          omega
      | @target l' j' carried' index' _ number' _ =>
          rw [same, number] at number'
          have equal : j' = _ := (Nat.add_left_cancel number').symm
          subst equal
          have label := (getElem?_of_idxOf? index).symm.trans (getElem?_of_idxOf? index')
          cases label
          exact Nat.ne_of_lt less (h.position_unique atP carried' atQ carried)

/-- Every position belongs to the block that starts last before it. -/
theorem exists_start (h : Admissible is) {p : Nat} (inside : p < is.length) :
    ∃ s, s ≤ p ∧ startsBlock is s = true ∧ blockAt is s = blockAt is p ∧
      ∀ k, s < k → k ≤ p → startsBlock is k = false := by
  induction p with
  | zero => exact ⟨0, Nat.le_refl 0, rfl, rfl, fun k after before => absurd after (by omega)⟩
  | succ p ih =>
      cases starts : startsBlock is (p + 1) with
      | true =>
          exact ⟨p + 1, Nat.le_refl _, starts, rfl, fun k after before => absurd after (by omega)⟩
      | false =>
          obtain ⟨s, le, start, same, none⟩ := ih (Nat.lt_of_succ_lt inside)
          refine ⟨s, Nat.le_succ_of_le le, start, ?_, ?_⟩
          · rw [same, h.blockAt_of_not_starts inside starts]
          · intro k after before
            rcases Nat.lt_or_eq_of_le before with earlier | rfl
            · exact none k after (Nat.le_of_lt_succ earlier)
            · exact starts

/-- No block starts between two positions of one block. -/
theorem not_starts_between (h : Admissible is) {p q k : Nat} (same : blockAt is p = blockAt is q)
    (after : p < k) (before : k ≤ q) (inside : q < is.length) : startsBlock is k = false := by
  obtain ⟨s, sLe, sStarts, sSame, -⟩ :=
    h.exists_start (Nat.lt_of_lt_of_le after before |>.trans inside)
  obtain ⟨t, tLe, tStarts, tSame, none⟩ := h.exists_start inside
  rcases Nat.lt_or_ge t k with early | late
  · exact none k early before
  · have less : s < t := Nat.lt_of_le_of_lt sLe (Nat.lt_of_lt_of_le after late)
    have apart := h.starts_apart less (Nat.lt_of_le_of_lt tLe inside) sStarts tStarts
    rw [sSame, tSame] at apart
    exact absurd same apart

theorem blockAt_ne_of_starts (h : Admissible is) {p q : Nat} (less : p < q) (inside : q < is.length)
    (starts : startsBlock is q = true) : blockAt is p ≠ blockAt is q := by
  intro same
  have goesOn := h.not_starts_between same less (Nat.le_refl q) inside
  rw [starts] at goesOn
  cases goesOn

theorem blockAt_ne_of_ends (h : Admissible is) {p q : Nat} (less : p < q) (inside : q < is.length)
    (ends : endsBlock is p = true) : blockAt is p ≠ blockAt is q := by
  intro same
  have goesOn := h.not_starts_between same (Nat.lt_succ_self p) less inside
  rw [endsBlock, goesOn, Bool.or_false, beq_iff_eq] at ends
  omega

theorem ends_unique (h : Admissible is) {p q : Nat} (hp : p < is.length) (hq : q < is.length)
    (endsP : endsBlock is p = true) (endsQ : endsBlock is q = true)
    (same : blockAt is p = blockAt is q) : p = q := by
  rcases Nat.lt_trichotomy p q with less | equal | more
  · exact absurd same (h.blockAt_ne_of_ends less hq endsP)
  · exact equal
  · exact absurd same.symm (h.blockAt_ne_of_ends more hp endsQ)

theorem exists_fresh_of_lt (h : Admissible is) {m q : Nat} (low : 2 + (targets is).length ≤ m)
    (high : m < (cursorAt is q).fresh) :
    ∃ p, p < is.length ∧ startsBlock is p = true ∧ (blockAt is p).index = m := by
  induction q with
  | zero => exact absurd high (Nat.not_lt_of_le low)
  | succ q ih =>
      rcases Nat.lt_or_ge m (cursorAt is q).fresh with early | late
      · exact ih early
      · cases hq : is[q]? with
        | none =>
            rw [cursorAt_succ_of_none hq] at high
            exact absurd high (Nat.not_lt_of_le late)
        | some i =>
            cases h.numbering hq with
            | fresh _ starts number more =>
                have inside := (List.getElem?_eq_some_iff.mp hq).1
                exact ⟨q, inside, starts, by omega⟩
            | target _ _ _ _ same =>
                rw [same] at high
                exact absurd high (Nat.not_lt_of_le late)
            | stay _ _ _ same =>
                rw [same] at high
                exact absurd high (Nat.not_lt_of_le late)

/-- The block of a target has the number of the target. -/
theorem exists_start_of_target (h : Admissible is) {j : Nat} {l : Label}
    (hj : (targets is)[j]? = some l) :
    ∃ (p : Nat) (i : Instruction), is[p]? = some i ∧ i.label = some l ∧ startsBlock is p = true ∧
      (blockAt is p).index = 2 + j := by
  have member : l ∈ references is := h.mem_targets.mp (List.mem_of_getElem? hj)
  obtain ⟨p, i, hp, carried⟩ := mem_labels.mp (h.defined l member)
  have targeted : isTargeted is i = true := isTargeted_of_mem carried member
  refine ⟨p, i, hp, carried, startsBlock_of_targeted hp targeted, ?_⟩
  cases h.numbering hp with
  | @target l' j' carried' index _ number _ =>
      cases carried.symm.trans carried'
      have inside := (List.getElem?_eq_some_iff.mp hj).1
      have place : j = j' := (List.getElem?_inj inside h.nodup_targets).mp
        (hj.trans (getElem?_of_idxOf? index).symm)
      rw [place]
      exact number
  | fresh free _ _ _ => rw [targeted] at free; cases free
  | stay before goesOn _ _ =>
      rw [startsBlock_of_targeted hp targeted] at goesOn
      cases goesOn

/-- Every number between those of the first block and the next one is in use. -/
theorem exists_start_of_index (h : Admissible is) {m : Nat} (low : 2 ≤ m)
    (high : m < (cursorAt is is.length).fresh) :
    ∃ p, p < is.length ∧ startsBlock is p = true ∧ (blockAt is p).index = m := by
  rcases Nat.lt_or_ge m (2 + (targets is).length) with isTarget | fresh
  · have inside : m - 2 < (targets is).length := by omega
    obtain ⟨p, i, hp, -, starts, number⟩ :=
      h.exists_start_of_target (List.getElem?_eq_getElem inside)
    exact ⟨p, (List.getElem?_eq_some_iff.mp hp).1, starts, by omega⟩
  · exact h.exists_fresh_of_lt fresh high

end Admissible

end FlowGraph.Construction
