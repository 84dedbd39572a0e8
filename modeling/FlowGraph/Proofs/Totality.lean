import FlowGraph.Proofs.Vertices

/-! Construction does not run out of nodes. An edit can be carried out on a graph
that has the nodes it names, so whether edits can be replayed depends on the
number of nodes alone. The edits of an admissible list name only nodes that were
allocated before, and so nothing but its labels can keep a short list from having
a graph. -/
namespace FlowGraph.Construction

variable {is : List Instruction} {size : Nat}

/-- An edit names only nodes of a graph of a given size, or the next one if it
allocates it. -/
def Edit.Fits (size : Nat) : Edit → Prop
  | .allocate node => node = Node.ofIndex size
  | .aim _ _ => True
  | .place node _ => node.index < size
  | .connect source destination => source.index < size ∧ destination.index < size

/-- Edits that fit one after another, each what the ones before it leave. -/
def Fit (size : Nat) : List Edit → Prop
  | [] => True
  | e :: es => e.Fits size ∧ Fit (size + if e.isAllocate then 1 else 0) es

theorem fit_append {es fs : List Edit} :
    Fit size (es ++ fs) ↔ Fit size es ∧ Fit (size + es.countP Edit.isAllocate) fs := by
  induction es generalizing size with
  | nil => exact ⟨fun fits => ⟨trivial, fits⟩, And.right⟩
  | cons e es ih =>
      rw [List.cons_append, Fit, Fit, ih, and_assoc, List.countP_cons, Nat.add_assoc,
        Nat.add_comm (es.countP _)]

theorem exists_modify {t : Table 32 Vertex} {k : Node} (inside : k.index < t.size)
    (f : Vertex → Vertex) : ∃ changed, t.modify? k f = some changed := by
  rw [Table.modify?, if_pos (Table.contains_iff.mpr inside)]
  exact ⟨_, rfl⟩

theorem Edit.Fits.exists_perform {g : Graph} {e : Edit} (fits : e.Fits g.size) :
    ∃ next, e.perform? g = some next := by
  cases e with
  | allocate node => exact ⟨_, if_pos (Eq.symm fits)⟩
  | aim label node => exact ⟨g, rfl⟩
  | place node i =>
      obtain ⟨changed, done⟩ := exists_modify fits (·.addInstruction i)
      exact ⟨⟨changed⟩, by rw [Edit.perform?, done, Option.map_some]⟩
  | connect source destination =>
      obtain ⟨first, done⟩ := exists_modify fits.1 (·.addSucc destination)
      have inside : destination.index < first.size := Table.size_modify? done ▸ fits.2
      obtain ⟨second, done'⟩ := exists_modify inside (·.addPred source)
      exact ⟨⟨second⟩, by rw [Edit.perform?, done]; simp only [done', Option.map_some]⟩

theorem Fit.exists_replay {g : Graph} {es : List Edit} (fit : Fit g.size es) :
    ∃ last, replay? g es = some last := by
  induction es generalizing g with
  | nil => exact ⟨g, rfl⟩
  | cons e es ih =>
      obtain ⟨next, first⟩ := fit.1.exists_perform
      obtain ⟨last, rest⟩ := ih (g := next) (perform?_size first ▸ fit.2)
      refine ⟨last, ?_⟩
      rw [replay?, List.foldlM_cons, first]
      exact rest

theorem fit_targetEdits (ts : List Label) : Fit 2 (targetEdits ts) := by
  show Fit (2 + 0) (targetEdits ts)
  rw [targetEdits]
  generalize 0 = first
  induction ts generalizing first with
  | nil => trivial
  | cons l ts ih => exact ⟨rfl, trivial, ih (first + 1)⟩

theorem two_le_fresh (is : List Instruction) (p : Nat) : 2 ≤ (cursorAt is p).fresh :=
  Nat.le_trans (Nat.le_add_right 2 _) (two_add_targets_le_fresh is p)

theorem fit_fallThrough {c : Cursor} {node : Node} (current : c.current.index < size)
    (inside : node.index < size) : Fit size (c.fallThrough node) := by
  unfold Cursor.fallThrough
  split
  · exact ⟨⟨current, inside⟩, trivial⟩
  · trivial

namespace Admissible

theorem index_current_lt (h : Admissible is) {p : Nat} (inside : p ≤ is.length) :
    (cursorAt is p).current.index < (cursorAt is p).fresh := by
  cases p with
  | zero =>
      have enter : Node.enter.index < 2 := by decide
      exact Nat.lt_of_lt_of_le enter (two_le_fresh is 0)
  | succ p => exact (h.index_blockAt_lt inside).2

theorem index_target_lt (h : Admissible is) {l : Label} {n : Node}
    (found : targetNode? (targets is) l = some n) (p : Nat) :
    n.index < (cursorAt is p).fresh := by
  obtain ⟨j, index, rfl⟩ := Option.map_eq_some_iff.mp found
  have bound := lt_length_of_idxOf? index
  have room := two_add_targets_le_fresh is p
  rw [h.index_target index]
  omega

theorem index_jump_lt (h : Admissible is) {op : Op} {n : Node}
    (jumps : jump? (targets is) op = some n) (p : Nat) : n.index < (cursorAt is p).fresh := by
  cases op with
  | plain text => cases jumps
  | goto l => exact h.index_target_lt jumps p
  | branch condition l => exact h.index_target_lt jumps p
  | ret value =>
      cases jumps
      exact Nat.lt_of_lt_of_le (by decide) (two_le_fresh is p)

/-- What one instruction adds fits the nodes that there are before it. -/
theorem fit_instructionEdits (h : Admissible is) {p : Nat} {i : Instruction}
    (hp : is[p]? = some i) :
    Fit (cursorAt is p).fresh (instructionEdits (targets is) (cursorAt is p) i) := by
  have inside := (List.getElem?_eq_some_iff.mp hp).1
  have current := h.index_current_lt (Nat.le_of_lt inside)
  have placed := (h.index_blockAt_lt inside).2
  rw [instructionEdits, fit_append, countP_openingEdits, ← fresh_cursorAt_succ hp, ← blockAt_eq hp]
  refine ⟨?_, placed, ?_⟩
  · cases opened : opening (targets is) (cursorAt is p).boundary i with
    | stay => trivial
    | target node =>
        have op := opens h.toWellLabelled hp
        rw [opened] at op
        cases op with
        | @target l j _ index _ _ =>
            have found : targetNode? (targets is) l = some (Node.ofIndex (2 + j)) := by
              rw [targetNode?, index, Option.map_some]
            exact fit_fallThrough current (h.index_target_lt found p)
    | fresh =>
        refine ⟨rfl, fit_fallThrough (Nat.lt_succ_of_lt current) ?_⟩
        exact Nat.lt_succ_of_le (Nat.mod_le _ _)
  · cases jumps : jump? (targets is) i.op with
    | none => trivial
    | some n => exact ⟨⟨placed, h.index_jump_lt jumps (p + 1)⟩, trivial⟩

theorem fit_linkEdits (h : Admissible is) {p : Nat} {rest : List Instruction}
    (within : p ≤ is.length) (dropped : is.drop p = rest) :
    Fit (cursorAt is p).fresh (linkEdits (targets is) (cursorAt is p) rest) := by
  induction rest generalizing p with
  | nil =>
      refine ⟨⟨h.index_current_lt within, ?_⟩, trivial⟩
      exact Nat.lt_of_lt_of_le (by decide) (two_le_fresh is p)
  | cons i rest ih =>
      have hp : is[p]? = some i := by rw [← List.head?_drop, dropped, List.head?_cons]
      have next : is.drop (p + 1) = rest := by rw [← List.tail_drop, dropped, List.tail_cons]
      rw [linkEdits, fit_append, countP_instructionEdits, ← cursorAt_succ hp]
      exact ⟨h.fit_instructionEdits hp, ih (List.getElem?_eq_some_iff.mp hp).1 next⟩

theorem exists_build (h : Admissible is) : ∃ g, build is = .ok g := by
  have fit : Fit Graph.initial.size (edits is) := by
    rw [edits, fit_append, countP_targetEdits]
    exact ⟨fit_targetEdits _, h.fit_linkEdits (Nat.zero_le _) List.drop_zero⟩
  obtain ⟨g, replayed⟩ := fit.exists_replay
  refine ⟨g, ?_⟩
  rw [build, fault?_eq_none_iff.mpr h.toWellLabelled, replayed]

end Admissible

theorem fault?_ne_missingKey (is : List Instruction) (cause : MissingKey) :
    fault? is ≠ some (.missingKey cause) := by
  unfold fault?
  split
  · intro same
    cases same
  · intro same
    obtain ⟨l, -, other⟩ := Option.map_eq_some_iff.mp same
    cases other

/-- Nothing but its labels keeps a short list from having a graph. -/
theorem build_ne_missingKey (short : is.length ≤ Key.count 32 - 2) (cause : MissingKey) :
    build is ≠ .error (.missingKey cause) := by
  intro failed
  cases faulty : fault? is with
  | none =>
      have admissible : Admissible is := ⟨fault?_eq_none_iff.mp faulty, short⟩
      obtain ⟨g, built⟩ := admissible.exists_build
      rw [built] at failed
      cases failed
  | some fault =>
      rw [build, faulty] at failed
      cases failed
      exact fault?_ne_missingKey is cause faulty

end FlowGraph.Construction
