import FlowGraph.Graph.Construction

/-! What replaying edits leaves in a graph. Edits only ever add: a vertex keeps
its role, gets the instructions placed in it at the end, and gets the edges that
are connected at it. A node that is not there yet counts as an empty block, so
allocating it changes no vertex. -/
namespace FlowGraph

/-- The vertex of a node, an empty block if the graph does not have the node. -/
def Graph.vertexOf (g : Graph) (n : Node) : Vertex := (g.get? n).getD { role := .block }

theorem Graph.vertexOf_eq {g : Graph} {n : Node} {v : Vertex} (h : g.get? n = some v) :
    g.vertexOf n = v := by rw [vertexOf, h, Option.getD_some]

theorem Graph.get?_eq_some_vertexOf {g : Graph} {n : Node} (h : n.index < g.size) :
    g.get? n = some (g.vertexOf n) := by
  have present : (g.get? n).isSome := Table.get?_isSome_iff.mpr h
  obtain ⟨v, hv⟩ := Option.isSome_iff_exists.mp present
  rw [vertexOf_eq hv, hv]

theorem Graph.lt_size_of_get? {g : Graph} {n : Node} {v : Vertex} (h : g.get? n = some v) :
    n.index < g.size :=
  Table.get?_isSome_iff.mp (Option.isSome_of_eq_some h)

namespace Construction

def Edit.placedIn? (n : Node) : Edit → Option Instruction
  | .place m i => if m = n then some i else none
  | _ => none

/-- The instructions that edits place in a node, in order. -/
def placed (n : Node) (es : List Edit) : List Instruction := es.filterMap (Edit.placedIn? n)

def Edit.isAllocate : Edit → Bool
  | .allocate _ => true
  | _ => false

@[simp] theorem placed_nil (n : Node) : placed n [] = [] := rfl

@[simp] theorem placed_append (n : Node) (es fs : List Edit) :
    placed n (es ++ fs) = placed n es ++ placed n fs := List.filterMap_append

/-- How the vertex of `n` differs after some edits. -/
structure Grown (n : Node) (es : List Edit) (v v' : Vertex) : Prop where
  role : v'.role = v.role
  instructions : v'.instructions = v.instructions ++ placed n es
  succs : ∀ m, m ∈ v'.succs ↔ m ∈ v.succs ∨ .connect n m ∈ es
  preds : ∀ m, m ∈ v'.preds ↔ m ∈ v.preds ∨ .connect m n ∈ es

theorem Grown.refl (n : Node) (v : Vertex) : Grown n [] v v :=
  ⟨rfl, by simp, fun m => by simp, fun m => by simp⟩

theorem Grown.trans {n : Node} {es fs : List Edit} {u v w : Vertex} (first : Grown n es u v)
    (second : Grown n fs v w) : Grown n (es ++ fs) u w where
  role := second.role.trans first.role
  instructions := by
    rw [second.instructions, first.instructions, placed_append, List.append_assoc]
  succs := by
    intro m
    rw [second.succs, first.succs, List.mem_append, or_assoc]
  preds := by
    intro m
    rw [second.preds, first.preds, List.mem_append, or_assoc]

theorem modify?_contains {t t' : Table 32 Vertex} {k : Node} {f : Vertex → Vertex}
    (h : t.modify? k f = some t') : t.contains k := by
  rw [Table.modify?] at h
  split at h
  · assumption
  · cases h

theorem modify?_vertexOf {t t' : Table 32 Vertex} {k : Node} {f : Vertex → Vertex}
    (h : t.modify? k f = some t') (n : Node) :
    (Graph.mk t').vertexOf n =
      if k = n then f ((Graph.mk t).vertexOf n) else (Graph.mk t).vertexOf n := by
  have present : k.index < t.size := Table.contains_iff.mp (modify?_contains h)
  have read : t'.get? n = if k = n then (t.get? n).map f else t.get? n := Table.get?_modify? h
  by_cases same : k = n
  · subst same
    have hv : t.get? k = some ((Graph.mk t).vertexOf k) := Graph.get?_eq_some_vertexOf present
    rw [if_pos rfl, hv, Option.map_some] at read
    rw [if_pos rfl, Graph.vertexOf_eq (g := ⟨t'⟩) read]
  · rw [if_neg same] at read
    rw [if_neg same, Graph.vertexOf, Graph.get?, read, Graph.vertexOf, Graph.get?]

/-- A new entry is the empty block that its node counted as before. -/
theorem push_vertexOf (t : Table 32 Vertex) (n : Node) :
    (Graph.mk (t.push { role := .block })).vertexOf n = (Graph.mk t).vertexOf n := by
  simp only [Graph.vertexOf, Graph.get?, Table.get?, Table.push, Array.getElem?_push]
  split
  · next last =>
      have missing : t.entries[n.index]? = none := Array.getElem?_eq_none (Nat.le_of_eq last.symm)
      rw [missing]
      rfl
  · rfl

theorem perform?_grown {g g' : Graph} {e : Edit} (h : e.perform? g = some g') (n : Node) :
    Grown n [e] (g.vertexOf n) (g'.vertexOf n) := by
  cases e with
  | allocate node =>
      simp only [Edit.perform?] at h
      split at h
      · cases h
        rw [push_vertexOf]
        exact ⟨rfl, by simp [placed, Edit.placedIn?], by simp, by simp⟩
      · cases h
  | aim label node =>
      cases h
      exact ⟨rfl, by simp [placed, Edit.placedIn?], by simp, by simp⟩
  | place node i =>
      obtain ⟨t, changed, rfl⟩ := Option.map_eq_some_iff.mp h
      rw [modify?_vertexOf changed]
      by_cases same : node = n
      · rw [if_pos same]
        exact ⟨rfl, by simp [placed, Edit.placedIn?, same, Vertex.addInstruction],
          by simp [Vertex.addInstruction], by simp [Vertex.addInstruction]⟩
      · rw [if_neg same]
        exact ⟨rfl, by simp [placed, Edit.placedIn?, same], by simp, by simp⟩
  | connect source destination =>
      simp only [Edit.perform?] at h
      split at h
      · next t first =>
          obtain ⟨t', second, rfl⟩ := Option.map_eq_some_iff.mp h
          rw [modify?_vertexOf second, modify?_vertexOf first]
          refine ⟨?_, ?_, fun m => ?_, fun m => ?_⟩
          · split <;> split <;> rfl
          · split <;> split <;> simp [placed, Edit.placedIn?, Vertex.addSucc, Vertex.addPred]
          · by_cases out : n = source
            · subst out
              split <;> simp [Vertex.addSucc, Vertex.addPred, or_comm]
            · rw [if_neg (Ne.symm out)]
              split <;> simp [Vertex.addPred, out]
          · by_cases into : n = destination
            · subst into
              rw [if_pos rfl]
              split <;> simp [Vertex.addSucc, Vertex.addPred, or_comm]
            · rw [if_neg (Ne.symm into)]
              split <;> simp [Vertex.addSucc, into]
      · cases h

theorem perform?_size {g g' : Graph} {e : Edit} (h : e.perform? g = some g') :
    g'.size = g.size + if e.isAllocate then 1 else 0 := by
  cases e with
  | allocate node =>
      simp only [Edit.perform?] at h
      split at h
      · cases h
        exact Table.size_push _ _
      · cases h
  | aim label node => cases h; rfl
  | place node i =>
      obtain ⟨t, changed, rfl⟩ := Option.map_eq_some_iff.mp h
      exact Table.size_modify? changed
  | connect source destination =>
      simp only [Edit.perform?] at h
      split at h
      · next t first =>
          obtain ⟨t', second, rfl⟩ := Option.map_eq_some_iff.mp h
          exact (Table.size_modify? second).trans (Table.size_modify? first)
      · cases h

theorem replay?_cons {g g' : Graph} {e : Edit} {es : List Edit}
    (h : replay? g (e :: es) = some g') :
    ∃ next, e.perform? g = some next ∧ replay? next es = some g' := by
  rw [replay?, List.foldlM_cons] at h
  exact Option.bind_eq_some_iff.mp h

theorem replay?_grown {g g' : Graph} {es : List Edit} (h : replay? g es = some g') (n : Node) :
    Grown n es (g.vertexOf n) (g'.vertexOf n) := by
  induction es generalizing g with
  | nil =>
      cases h
      exact Grown.refl n _
  | cons e es ih =>
      obtain ⟨next, first, rest⟩ := replay?_cons h
      exact (perform?_grown first n).trans (ih rest)

theorem replay?_size {g g' : Graph} {es : List Edit} (h : replay? g es = some g') :
    g'.size = g.size + es.countP Edit.isAllocate := by
  induction es generalizing g with
  | nil => cases h; rfl
  | cons e es ih =>
      obtain ⟨next, first, rest⟩ := replay?_cons h
      rw [ih rest, perform?_size first, List.countP_cons]
      omega

end Construction
end FlowGraph
