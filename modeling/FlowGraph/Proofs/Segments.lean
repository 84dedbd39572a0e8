import FlowGraph.Proofs.Vertices
import Mathlib.Data.List.Chain

/-! The blocks of a built graph are the segments of its instruction list. The
list is cut before every position that starts a block; the nodes of the pieces,
taken in the order of the list, are all the blocks and hold one piece each. -/
namespace FlowGraph.Construction

/-- Cuts a list whose first position is `p` before every later position that
`cut` picks. -/
def cutBefore {α : Type} (cut : Nat → Bool) : (p : Nat) → List α → List (List α)
  | _, [] => []
  | p, x :: rest =>
      match cutBefore cut (p + 1) rest with
      | [] => [[x]]
      | piece :: more => if cut (p + 1) then [x] :: piece :: more else (x :: piece) :: more

/-- The longest straight stretches of an instruction list. -/
def segments (is : List Instruction) : List (List Instruction) := cutBefore (startsBlock is) 0 is

section Cutting

variable {α : Type} (cut : Nat → Bool)

theorem cutBefore_singleton (p : Nat) (x : α) : cutBefore cut p [x] = [[x]] := rfl

theorem cutBefore_cons_cons (p : Nat) (x y : α) (rest : List α) :
    ∃ piece more, cutBefore cut (p + 1) (y :: rest) = (y :: piece) :: more ∧
      cutBefore cut p (x :: y :: rest) =
        if cut (p + 1) then [x] :: (y :: piece) :: more else (x :: y :: piece) :: more := by
  induction rest generalizing p x y with
  | nil => exact ⟨[], [], rfl, rfl⟩
  | cons z rest ih =>
      obtain ⟨piece, more, tail, whole⟩ := ih (p + 1) y z
      cases cuts : cut (p + 1 + 1) with
      | true =>
          rw [cuts, if_pos rfl] at whole
          exact ⟨[], (z :: piece) :: more, whole, by rw [cutBefore, whole]⟩
      | false =>
          rw [cuts, if_neg Bool.false_ne_true] at whole
          exact ⟨z :: piece, more, whole, by rw [cutBefore, whole]⟩

theorem flatten_cutBefore (p : Nat) (xs : List α) : (cutBefore cut p xs).flatten = xs := by
  induction xs generalizing p with
  | nil => rfl
  | cons x rest ih =>
      cases rest with
      | nil => rfl
      | cons y rest =>
          obtain ⟨piece, more, tail, whole⟩ := cutBefore_cons_cons cut p x y rest
          have joined := ih (p + 1)
          rw [tail] at joined
          rw [whole]
          split
          · exact congrArg (x :: ·) joined
          · exact congrArg (x :: ·) joined

theorem nil_not_mem_cutBefore (p : Nat) (xs : List α) : [] ∉ cutBefore cut p xs := by
  induction xs generalizing p with
  | nil => exact List.not_mem_nil
  | cons x rest ih =>
      cases rest with
      | nil => simp [cutBefore]
      | cons y rest =>
          obtain ⟨piece, more, tail, whole⟩ := cutBefore_cons_cons cut p x y rest
          have others := ih (p + 1)
          rw [tail] at others
          rw [whole]
          split <;> simp_all

/-- Neighbours in a piece are neighbours in the list with no cut between them. -/
theorem isChain_of_mem_cutBefore {R : α → α → Prop} {p : Nat} {xs : List α}
    (joined : ∀ q a b, xs[q]? = some a → xs[q + 1]? = some b → cut (p + q + 1) = false → R a b)
    {piece : List α} (member : piece ∈ cutBefore cut p xs) : piece.IsChain R := by
  induction xs generalizing p piece with
  | nil => cases member
  | cons x rest ih =>
      cases rest with
      | nil =>
          rw [cutBefore_singleton, List.mem_singleton] at member
          rw [member]
          exact .singleton x
      | cons y rest =>
          have later : ∀ s ∈ cutBefore cut (p + 1) (y :: rest), s.IsChain R := by
            intro s hs
            refine ih (fun q a b ha hb apart => joined (q + 1) a b ha hb ?_) hs
            rw [← apart]
            congr 1
            omega
          obtain ⟨s, more, tail, whole⟩ := cutBefore_cons_cons cut p x y rest
          rw [tail] at later
          rw [whole] at member
          cases cuts : cut (p + 1) with
          | true =>
              rw [cuts, if_pos rfl] at member
              rcases List.mem_cons.mp member with rfl | member
              · exact .singleton x
              · exact later piece member
          | false =>
              rw [cuts, if_neg Bool.false_ne_true] at member
              rcases List.mem_cons.mp member with rfl | member
              · exact .cons_cons (joined 0 x y rfl rfl cuts) (later _ List.mem_cons_self)
              · exact later piece (List.mem_cons_of_mem _ member)

end Cutting

/-- The nodes that `B` gives to the positions of a stretch. -/
def Covers (B : Nat → Node) (first last : Nat) (order : List Node) : Prop :=
  ∀ n, n ∈ order ↔ ∃ q, first ≤ q ∧ q < last ∧ B q = n

theorem Covers.cons {B : Nat → Node} {p last : Nat} {order : List Node} (less : p < last)
    (h : Covers B (p + 1) last order) : Covers B p last (B p :: order) := by
  intro n
  rw [List.mem_cons, h n]
  constructor
  · rintro (rfl | ⟨q, low, high, same⟩)
    · exact ⟨p, Nat.le_refl p, less, rfl⟩
    · exact ⟨q, Nat.le_of_succ_le low, high, same⟩
  · rintro ⟨q, low, high, same⟩
    rcases Nat.lt_or_eq_of_le low with later | rfl
    · exact .inr ⟨q, later, high, same⟩
    · exact .inl same.symm

/-- Where `B` is constant on each piece of a stretch and differs between pieces,
its values in order hold one piece each. -/
theorem exists_order {cut : Nat → Bool} {B : Nat → Node} {p : Nat} {x : Instruction}
    {rest : List Instruction}
    (stays : ∀ q, q < p + rest.length → cut (q + 1) = false → B (q + 1) = B q)
    (apart : ∀ q k r, q < k → k ≤ r → r < p + 1 + rest.length → cut k = true → B q ≠ B r) :
    ∃ tail : List Node, (B p :: tail).Nodup ∧ Covers B p (p + 1 + rest.length) (B p :: tail) ∧
      (B p :: tail).map (fun n => heldFrom B n p (x :: rest)) = cutBefore cut p (x :: rest) := by
  induction rest generalizing p x with
  | nil =>
      refine ⟨[], List.nodup_singleton _, Covers.cons (Nat.lt_succ_self p) ?_, ?_⟩
      · intro n
        constructor
        · intro h
          cases h
        · rintro ⟨q, low, high, _⟩
          exact absurd high (Nat.not_lt_of_le low)
      · simp [cutBefore_singleton, heldFrom]
  | cons y rest ih =>
      have length : p + 1 + (y :: rest).length = p + 1 + 1 + rest.length := by
        rw [List.length_cons]
        omega
      rw [length] at apart ⊢
      obtain ⟨tail, nodup, covers, pieces⟩ :=
        ih (p := p + 1) (x := y) (fun q less => stays q (by rw [List.length_cons]; omega)) apart
      obtain ⟨piece, more, tailCut, whole⟩ := cutBefore_cons_cons cut p x y rest
      rw [tailCut] at pieces
      rw [whole]
      cases cuts : cut (p + 1) with
      | true =>
          have new : ∀ q, p + 1 ≤ q → q < p + 1 + 1 + rest.length → B q ≠ B p := by
            intro q low high same
            exact apart p (p + 1) q (Nat.lt_succ_self p) low high cuts same.symm
          have fresh : B p ∉ B (p + 1) :: tail := by
            intro member
            obtain ⟨q, low, high, same⟩ := (covers (B p)).mp member
            exact new q low high same
          refine ⟨B (p + 1) :: tail, List.nodup_cons.mpr ⟨fresh, nodup⟩,
            Covers.cons (by omega) covers, ?_⟩
          have own : heldFrom B (B p) p (x :: y :: rest) = [x] := by
            rw [heldFrom_cons, if_pos rfl, heldFrom_eq_nil, List.append_nil]
            intro q low high
            exact new q low (by rw [List.length_cons] at high; omega)
          have others : ∀ n ∈ B (p + 1) :: tail,
              heldFrom B n p (x :: y :: rest) = heldFrom B n (p + 1) (y :: rest) := by
            intro n member
            refine heldFrom_cons_of_ne ?_ x _
            rintro rfl
            exact fresh member
          rw [if_pos rfl, List.map_cons, own, List.map_congr_left others, pieces]
      | false =>
          have same : B (p + 1) = B p := stays p (by rw [List.length_cons]; omega) cuts
          refine ⟨tail, same ▸ nodup, ?_, ?_⟩
          · intro n
            have whole := Covers.cons (B := B) (p := p) (by omega) covers n
            rw [same] at whole
            rw [← whole, List.mem_cons, List.mem_cons, List.mem_cons, or_self_left]
          · rw [same] at pieces nodup
            have fresh := (List.nodup_cons.mp nodup).1
            have others : ∀ n ∈ tail,
                heldFrom B n p (x :: y :: rest) = heldFrom B n (p + 1) (y :: rest) := by
              intro n member
              refine heldFrom_cons_of_ne ?_ x _
              rintro rfl
              exact fresh member
            rw [List.map_cons, List.cons.injEq] at pieces
            rw [if_neg Bool.false_ne_true, List.map_cons, heldFrom_cons, if_pos rfl, pieces.1,
              List.map_congr_left others, pieces.2]
            rfl

variable {is : List Instruction} {g : Graph}

theorem Built.exists_order (h : Built is g) :
    ∃ order : List Node, order.Nodup ∧ (∀ n, n ∈ order ↔ n ∈ g.blocks) ∧
      order.map (fun n => heldFrom (blockAt is) n 0 is) = segments is := by
  have toBlocks : ∀ n, (∃ q, 0 ≤ q ∧ q < is.length ∧ blockAt is q = n) ↔ n ∈ g.blocks := by
    intro n
    constructor
    · rintro ⟨q, -, inside, rfl⟩
      exact h.blockAt_mem_blocks inside
    · intro block
      obtain ⟨q, inside, -, same⟩ := h.mem_blocks_iff_starts.mp block
      exact ⟨q, Nat.zero_le q, inside, same⟩
  cases is with
  | nil =>
      refine ⟨[], List.nodup_nil, fun n => ?_, rfl⟩
      rw [← toBlocks n]
      constructor
      · intro member
        cases member
      · rintro ⟨q, -, inside, -⟩
        cases inside
  | cons x rest =>
      have stays : ∀ q, q < 0 + rest.length → startsBlock (x :: rest) (q + 1) = false →
          blockAt (x :: rest) (q + 1) = blockAt (x :: rest) q := by
        intro q less goesOn
        exact h.blockAt_of_not_starts (by rw [List.length_cons]; omega) goesOn
      have apart : ∀ q k r, q < k → k ≤ r → r < 0 + 1 + rest.length →
          startsBlock (x :: rest) k = true → blockAt (x :: rest) q ≠ blockAt (x :: rest) r := by
        intro q k r after before inside starts same
        have goesOn := h.not_starts_between same after before (by rw [List.length_cons]; omega)
        rw [starts] at goesOn
        cases goesOn
      obtain ⟨tail, nodup, covers, pieces⟩ := Construction.exists_order stays apart
      refine ⟨blockAt (x :: rest) 0 :: tail, nodup, fun n => ?_, pieces⟩
      have length : 0 + 1 + rest.length = (x :: rest).length := by
        rw [List.length_cons]
        omega
      rw [covers n, ← toBlocks n, length]

/-- Inside a segment no instruction but the last ends it, and none but the first
is a target. -/
theorem isChain_segments {segment : List Instruction} (member : segment ∈ segments is) :
    segment.IsChain fun a b => a.isTerminator = false ∧ isTargeted is b = false := by
  refine isChain_of_mem_cutBefore (startsBlock is) ?_ member
  intro q a b ha hb goesOn
  rw [Nat.zero_add, startsBlock, ha, hb, Option.any_some, Option.any_some] at goesOn
  exact (Bool.or_eq_false_iff.mp goesOn).symm

theorem targeted_or_terminator_in_segment {segment : List Instruction}
    (member : segment ∈ segments is) {k : Nat} {i : Instruction} (hk : segment[k]? = some i) :
    (isTargeted is i = true → k = 0) ∧ (i.isTerminator = true → k + 1 = segment.length) := by
  have chain := List.isChain_iff_getElem.mp (isChain_segments member)
  obtain ⟨inside, rfl⟩ := List.getElem?_eq_some_iff.mp hk
  constructor
  · intro targeted
    cases k with
    | zero => rfl
    | succ k =>
        have free := (chain k inside).2
        rw [targeted] at free
        cases free
  · intro ends
    rcases Nat.lt_or_eq_of_le (Nat.succ_le_of_lt inside) with more | last
    · have plain := (chain k more).1
      rw [ends] at plain
      cases plain
    · exact last

/-- The blocks of a built graph are the segments of its list, one block each. -/
theorem blocks_are_segments (short : is.length ≤ Key.count 32 - 2) (built : build is = .ok g) :
    (∃ node : Fin (segments is).length → Node, Function.Injective node ∧
      (∀ n, n ∈ g.blocks ↔ ∃ k, node k = n) ∧
      ∀ k, (g.get? (node k)).map (·.instructions) = some ((segments is).get k)) ∧
    g.blocks.Nodup ∧ (segments is).flatten = is ∧
    (∀ n ∈ g.blocks, ∃ v, g.get? n = some v ∧ v.instructions ≠ [] ∧
      ∀ (k : Nat) (i : Instruction), v.instructions[k]? = some i →
        (isTargeted is i = true → k = 0) ∧
        (i.isTerminator = true → k + 1 = v.instructions.length)) ∧
    ∀ n ∈ [Node.enter, Node.exit], ∃ v, g.get? n = some v ∧ v.isBlock = false ∧
      v.instructions = [] := by
  have h := Built.of_build short built
  obtain ⟨order, nodup, members, pieces⟩ := h.exists_order
  have held : ∀ n ∈ g.blocks, ∃ v, g.get? n = some v ∧
      v.instructions = heldFrom (blockAt is) n 0 is := by
    intro n member
    obtain ⟨v, read, -⟩ := (Graph.mem_blocks_iff h.size_le).mp member
    exact ⟨v, read, h.instructions_of_get? read⟩
  have length : (segments is).length = order.length := by rw [← pieces, List.length_map]
  refine ⟨⟨fun k => order.get (k.cast length), ?_, ?_, ?_⟩, Graph.nodup_blocks h.size_le,
    flatten_cutBefore _ 0 is, ?_, ?_⟩
  · intro j k same
    have index := congrArg Fin.val (nodup.get_inj_iff.mp same)
    exact Fin.ext index
  · intro n
    rw [← members n, List.mem_iff_get]
    constructor
    · rintro ⟨k, hk⟩
      exact ⟨k.cast length.symm, hk⟩
    · rintro ⟨k, hk⟩
      exact ⟨k.cast length, hk⟩
  · intro k
    obtain ⟨v, read, contents⟩ := held _ ((members _).mp (List.get_mem order (k.cast length)))
    rw [read, Option.map_some, contents]
    simp [← pieces]
  · intro n member
    obtain ⟨v, read, contents⟩ := held n member
    have segment : v.instructions ∈ segments is := by
      rw [← pieces, contents]
      exact List.mem_map_of_mem ((members n).mpr member)
    refine ⟨v, read, fun empty => ?_, fun k i hk => targeted_or_terminator_in_segment segment hk⟩
    exact nil_not_mem_cutBefore _ 0 is (empty ▸ segment)
  · intro n member
    have low : n.index < 2 := by
      simp only [List.mem_cons, List.not_mem_nil, or_false] at member
      rcases member with rfl | rfl <;> decide
    have held := Graph.get?_eq_some_vertexOf (Nat.lt_of_lt_of_le low h.two_le_size)
    refine ⟨g.vertexOf n, held, ?_, ?_⟩
    · rw [← Bool.not_eq_true, h.isBlock_vertexOf]
      exact Nat.not_le_of_lt low
    · exact h.instructions_of_index_lt low

theorem blocks_of_sampleLoop :
    sampleLoop.length ≤ Key.count 32 - 2 ∧ ∃ g, build sampleLoop = .ok g ∧
    (segments sampleLoop).map List.length = [1, 2, 1, 1] ∧
    ∃ node : Fin (segments sampleLoop).length → Node, Function.Injective node ∧
      (∀ n, n ∈ g.blocks ↔ ∃ k, node k = n) ∧
      ∀ k, (g.get? (node k)).map (·.instructions) = some ((segments sampleLoop).get k) :=
  ⟨by decide, _, rfl, by decide, (blocks_are_segments (by decide) rfl).1⟩

end FlowGraph.Construction
