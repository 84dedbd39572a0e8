import FlowGraph.Encoding.Codec
import Mathlib.Data.List.Forall2
import Mathlib.Data.Set.List

/-! Plain data keep the values that they were written from. This passes from items to
lists and from fields to records. Of the edges of a graph reading keeps which nodes
are listed, and neither their order nor their number, so that data whose lists of
edges have the same items are one graph. -/
namespace FlowGraph

namespace Datum

variable {α β : Type} {item? : Datum → Option α}

/-- Reading gives back every value that was written. -/
def Reads (decode? : Datum → Option α) (encode : α → Datum) : Prop :=
  ∀ a, decode? (encode a) = some a

theorem mapM_eq_some_iff {xs : List Datum} {as : List α} :
    xs.mapM item? = some as ↔ List.Forall₂ (fun x a => item? x = some a) xs as := by
  induction xs generalizing as with
  | nil => simp [eq_comm]
  | cons x xs ih =>
      rw [List.mapM_cons, List.forall₂_cons_left_iff]
      simp only [Option.bind_eq_bind, Option.bind_eq_some_iff, Option.pure_def, Option.some.injEq,
        ih]
      constructor
      · rintro ⟨a, first, as, rest, rfl⟩
        exact ⟨a, as, first, rest, rfl⟩
      · rintro ⟨a, as, first, rest, rfl⟩
        exact ⟨a, first, as, rest, rfl⟩

theorem list?_eq_some_iff {d : Datum} {as : List α} : d.list? item? = some as ↔
    ∃ xs, d = .list xs ∧ List.Forall₂ (fun x a => item? x = some a) xs as := by
  cases d <;> simp [list?, mapM_eq_some_iff]

theorem Reads.list {encode : α → Datum} (reads : Reads item? encode) :
    Reads (list? item?) fun as => .list (as.map encode) := by
  intro as
  refine list?_eq_some_iff.mpr ⟨_, rfl, List.forall₂_map_left_iff.mpr ?_⟩
  exact List.forall₂_same.mpr fun a _ => reads a

theorem Reads.optional {encode : α → Datum} (reads : Reads item? encode)
    (present : ∀ a, encode a ≠ .null) : Reads (optional? item?) (ofOption encode) := by
  intro o
  cases o with
  | none => rfl
  | some a =>
      rw [ofOption, optional?, reads, Option.map_some]
      exact present a

theorem natBelow?_eq_some_iff {d : Datum} {bound m : Nat} :
    d.natBelow? bound = some m ↔ m < bound ∧ d = .int m := by
  unfold natBelow?
  split
  · next n =>
      rw [Option.ite_none_right_eq_some, Option.some.injEq]
      constructor
      · rintro ⟨less, rfl⟩
        exact ⟨less, rfl⟩
      · rintro ⟨less, same⟩
        have equal : n = m := Int.ofNat.inj (int.inj same)
        exact ⟨equal ▸ less, equal⟩
  · next other =>
      constructor
      · intro read
        cases read
      · rintro ⟨-, rfl⟩
        exact absurd rfl (other m)

theorem length_fields? {d : Datum} {names : List String} {fields : List (Option Datum)}
    (read : d.fields? names = some fields) : fields.length = names.length := by
  cases d with
  | record members =>
      cases read
      exact List.length_map _
  | list items =>
      rw [fields?, Option.ite_none_right_eq_some] at read
      rw [← read.1, ← Option.some.inj read.2, List.length_map]
  | _ => cases read

/-- The items of a list as they are. -/
def items? : Datum → Option (List Datum)
  | .list items => some items
  | _ => none

/-- One field of a record, named or listed. -/
def field? (names : List String) (name : String) (d : Datum) : Option Datum :=
  (d.fields? names).bind fun fields => fields[names.idxOf name]?.join

variable {names : List String} {name : String}

theorem fields?_singleton (d : Datum) (name : String) :
    d.fields? [name] = none ∧ d.field? [name] name = none ∨
      ∃ field, d.fields? [name] = some [field] ∧ d.field? [name] name = field := by
  cases read : d.fields? [name] with
  | none => exact .inl ⟨rfl, by rw [field?, read, Option.bind_none]⟩
  | some fields =>
      obtain ⟨field, rfl⟩ := List.length_eq_one_iff.mp (length_fields? read)
      refine .inr ⟨field, rfl, ?_⟩
      rw [field?, read, List.idxOf_cons_self]
      rfl

theorem field?_record (known : name ∈ names) (members : List (String × Datum)) :
    (record members).field? names name = member? members name := by
  rw [field?, fields?, Option.bind_some, List.getElem?_map, List.getElem?_idxOf known]
  rfl

theorem field?_list {items : List Datum} (full : items.length = names.length) :
    (list items).field? names name = items[names.idxOf name]? := by
  rw [field?, fields?, if_pos full, Option.bind_some, List.getElem?_map]
  cases items[names.idxOf name]? <;> rfl

/-- Two lists with the same items, in any order and any number. -/
inductive SameItems : Datum → Datum → Prop where
  | list {xs ys : List Datum} : (∀ x, x ∈ xs ↔ x ∈ ys) → SameItems (.list xs) (.list ys)

/-- Two data that are the same, or two lists whose items agree one by one. -/
inductive Each (R : Datum → Datum → Prop) : Datum → Datum → Prop where
  | same (d : Datum) : Each R d d
  | list {xs ys : List Datum} : List.Forall₂ R xs ys → Each R (.list xs) (.list ys)

/-- Two data that are the same, or two records of one form whose fields agree, each in
the way that its name calls for. -/
inductive Alike (names : List String) (R : String → Datum → Datum → Prop) :
    Datum → Datum → Prop where
  | same (d : Datum) : Alike names R d d
  | named {ms ns : List (String × Datum)} :
      List.Forall₂ (fun m n => m.1 = n.1 ∧ R m.1 m.2 n.2) ms ns →
        Alike names R (.record ms) (.record ns)
  | listed {ps : List (Datum × Datum)} : List.Forall₂ (fun name p => R name p.1 p.2) names ps →
      Alike names R (.list (ps.map (·.1))) (.list (ps.map (·.2)))

theorem Each.list?_eq {R : Datum → Datum → Prop} {d e : Datum} (each : Each R d e)
    (same : ∀ x y, R x y → item? x = item? y) : d.list? item? = e.list? item? := by
  cases each with
  | same d => rfl
  | list pairs =>
      rw [list?, list?]
      induction pairs with
      | nil => rfl
      | cons first rest ih => rw [List.mapM_cons, List.mapM_cons, same _ _ first, ih]

/-- Readers that see no difference between fields that agree see none between records. -/
theorem Alike.bind_field?_eq {R : String → Datum → Datum → Prop} {d e : Datum}
    (alike : Alike names R d e) (name : String) (known : name ∈ names) {f : Datum → Option β}
    (same : ∀ x y, R name x y → f x = f y) :
    (d.field? names name).bind f = (e.field? names name).bind f := by
  cases alike with
  | same d => rfl
  | named pairs =>
      -- The first member of the name stands at the same place in both records.
      rw [field?_record known, field?_record known]
      induction pairs with
      | nil => rfl
      | @cons m n ms ns pair rest ih =>
          obtain ⟨key, x⟩ := m
          obtain ⟨key', y⟩ := n
          obtain ⟨rfl, related⟩ := pair
          rw [member?, member?, List.lookup_cons, List.lookup_cons]
          by_cases own : name = key
          · rw [beq_iff_eq.mpr own]
            exact same x y (own ▸ related)
          · rw [beq_eq_false_iff_ne.mpr own]
            exact ih
  | @listed ps pairs =>
      have full := pairs.length_eq
      have inside : names.idxOf name < names.length := List.idxOf_lt_length_iff.mpr known
      have related := pairs.get inside (full ▸ inside)
      rw [List.get_eq_getElem, List.getElem_idxOf] at related
      rw [field?_list (by rw [List.length_map, full]), field?_list (by rw [List.length_map, full]),
        List.getElem?_map, List.getElem?_map, List.getElem?_eq_getElem (full ▸ inside)]
      exact same _ _ related

end Datum

theorem Label.reads : Datum.Reads Label.decode? Label.encode := fun _ => rfl

theorem Op.reads : Datum.Reads Op.decode? Op.encode := by
  intro op
  cases op with
  | plain text => rfl
  | goto target => rfl
  | branch condition target => rfl
  | ret value => cases value <;> rfl

theorem Instruction.reads : Datum.Reads Instruction.decode? Instruction.encode := by
  rintro ⟨label, op⟩
  have fields : (Instruction.encode ⟨label, op⟩).fields? ["label", "kind"] =
      some [some (Datum.ofOption Label.encode label), some op.encode] := rfl
  have carried := Label.reads.optional (fun _ => Datum.noConfusion) label
  rw [decode?, fields]
  simp only [Option.getD_some, carried, Op.reads op]

theorem Instruction.reads_all : Datum.Reads Instruction.decodeAll? Instruction.encodeAll :=
  Instruction.reads.list

theorem Body.reads : Datum.Reads Body.decode? Body.encode := by
  rintro ⟨name, params, instructions⟩
  have fields : (Body.encode ⟨name, params, instructions⟩).fields? ["name", "params", "insts"] =
      some [some (.text name), some (.list (params.map .text)),
        some (Instruction.encodeAll instructions)] := rfl
  have names : Datum.Reads (Datum.list? Datum.text?) fun as => .list (as.map .text) :=
    Datum.Reads.list fun _ => rfl
  rw [decode?, fields]
  simp only [Datum.text?, names params, Instruction.reads_all instructions]

theorem Role.reads : Datum.Reads Role.decode? Role.encode := by
  intro role
  cases role <;> rfl

namespace NodeSet

/-- How a node is listed. -/
def item (n : Node) : Datum := .int n.index

theorem item_injective : Function.Injective item := by
  intro n m same
  exact Key.ext (Int.ofNat.inj (Datum.int.inj same))

theorem node?_eq_some_iff {x : Datum} {n : Node} :
    (x.natBelow? (Key.count 32)).map Node.ofIndex = some n ↔ x = item n := by
  constructor
  · intro read
    obtain ⟨m, below, rfl⟩ := Option.map_eq_some_iff.mp read
    obtain ⟨less, rfl⟩ := Datum.natBelow?_eq_some_iff.mp below
    rw [item, Node.ofIndex, Key.index_ofIndex_of_lt less]
  · rintro rfl
    rw [item, Datum.natBelow?_eq_some_iff.mpr ⟨n.index_lt, rfl⟩, Option.map_some, Node.ofIndex,
      Key.ofIndex_index]

/-- Reading a set of nodes sees which nodes are listed and nothing else. -/
theorem decode?_eq_some_iff {d : Datum} {s : NodeSet} : decode? d = some s ↔
    ∃ xs, d = .list xs ∧ (∀ x ∈ xs, ∃ n, item n = x) ∧ ∀ n, n ∈ s ↔ item n ∈ xs := by
  rw [decode?, Option.map_eq_some_iff]
  simp only [Datum.list?_eq_some_iff, node?_eq_some_iff]
  constructor
  · rintro ⟨ns, ⟨xs, rfl, each⟩, rfl⟩
    have same : xs = ns.map item := by
      rw [← List.forall₂_eq_eq_eq]
      exact List.forall₂_map_right_iff.mpr each
    subst same
    refine ⟨_, rfl, List.forall_mem_map.mpr fun n _ => ⟨n, rfl⟩, ?_⟩
    intro n
    rw [KeySet.mem_ofList, List.mem_map_of_injective item_injective]
  · rintro ⟨xs, rfl, nodes, members⟩
    obtain ⟨ns, rfl⟩ : xs ∈ Set.range (List.map item) := by
      rw [Set.range_list_map]
      exact nodes
    refine ⟨ns, ⟨_, rfl, ?_⟩, KeySet.eq_of_mem_iff fun n => ?_⟩
    · exact List.forall₂_map_left_iff.mpr (List.forall₂_same.mpr fun n _ => rfl)
    · rw [KeySet.mem_ofList, members, List.mem_map_of_injective item_injective]

theorem decode?_congr {d e : Datum} (same : Datum.SameItems d e) : decode? d = decode? e := by
  cases same with
  | list same =>
      apply Option.ext
      intro s
      simp only [decode?_eq_some_iff, Datum.list.injEq, exists_eq_left', same]

theorem reads : Datum.Reads NodeSet.decode? NodeSet.encode := by
  intro s
  refine decode?_eq_some_iff.mpr
    ⟨s.toList.map item, rfl, List.forall_mem_map.mpr fun n _ => ⟨n, rfl⟩, ?_⟩
  intro n
  rw [List.mem_map_of_injective item_injective, KeySet.mem_toList]

end NodeSet

namespace Vertex

abbrev fieldNames : List String := ["kind", "insts", "preds", "succs"]

/-- A vertex is read field by field. -/
theorem decode?_eq (d : Datum) : decode? d =
    ((d.field? fieldNames "kind").bind Role.decode?).bind fun role =>
      ((d.field? fieldNames "insts").bind Instruction.decodeAll?).bind fun instructions =>
        ((d.field? fieldNames "preds").bind NodeSet.decode?).bind fun preds =>
          ((d.field? fieldNames "succs").bind NodeSet.decode?).map fun succs =>
            ⟨role, instructions, preds, succs⟩ := by
  cases read : d.fields? fieldNames with
  | none => simp only [decode?, Datum.field?, read, Option.bind_none]
  | some fields =>
      obtain ⟨role, instructions, preds, succs, rfl⟩ :=
        List.length_eq_four.mp (Datum.length_fields? read)
      have kind : d.field? fieldNames "kind" = role := by rw [Datum.field?, read]; rfl
      have insts : d.field? fieldNames "insts" = instructions := by rw [Datum.field?, read]; rfl
      have before : d.field? fieldNames "preds" = preds := by rw [Datum.field?, read]; rfl
      have after : d.field? fieldNames "succs" = succs := by rw [Datum.field?, read]; rfl
      rw [kind, insts, before, after, decode?, read]
      clear read kind insts before after
      -- A field that is missing ends the reading on both sides.
      cases role <;> cases instructions <;> cases preds <;> cases succs <;> simp
      next role instructions preds succs =>
        cases Role.decode? role <;> cases Instruction.decodeAll? instructions <;>
          cases NodeSet.decode? preds <;> cases NodeSet.decode? succs <;> rfl

theorem reads : Datum.Reads Vertex.decode? Vertex.encode := by
  intro v
  have kind : v.encode.field? fieldNames "kind" = some v.role.encode := rfl
  have insts : v.encode.field? fieldNames "insts" =
      some (Instruction.encodeAll v.instructions) := rfl
  have before : v.encode.field? fieldNames "preds" = some (NodeSet.encode v.preds) := rfl
  have after : v.encode.field? fieldNames "succs" = some (NodeSet.encode v.succs) := rfl
  simp only [decode?_eq, kind, insts, before, after, Option.bind_some, Role.reads v.role,
    Instruction.reads_all v.instructions, NodeSet.reads v.preds, NodeSet.reads v.succs,
    Option.map_some]

/-- Two values of one field of a vertex: the same, or lists of the same edges. -/
def FieldAlike (name : String) (x y : Datum) : Prop :=
  x = y ∨ (name = "preds" ∨ name = "succs") ∧ Datum.SameItems x y

theorem FieldAlike.eq {name : String} {x y : Datum} (related : FieldAlike name x y)
    (other : ¬(name = "preds" ∨ name = "succs")) : x = y :=
  related.resolve_right fun edges => other edges.1

theorem FieldAlike.nodes_eq {name : String} {x y : Datum} (related : FieldAlike name x y) :
    NodeSet.decode? x = NodeSet.decode? y := by
  rcases related with rfl | ⟨-, same⟩
  · rfl
  · exact NodeSet.decode?_congr same

/-- Data of a vertex that agree up to the order and number of the edges they list. -/
def Alike : Datum → Datum → Prop := Datum.Alike fieldNames FieldAlike

theorem decode?_congr {d e : Datum} (alike : Alike d e) : decode? d = decode? e := by
  rw [decode?_eq, decode?_eq, alike.bind_field?_eq "kind" (by decide),
    alike.bind_field?_eq "insts" (by decide), alike.bind_field?_eq "preds" (by decide),
    alike.bind_field?_eq "succs" (by decide)]
  · exact fun x y => FieldAlike.nodes_eq
  · exact fun x y => FieldAlike.nodes_eq
  · exact fun x y related => congrArg _ (related.eq (by decide))
  · exact fun x y related => congrArg _ (related.eq (by decide))

/-- The edges on one side that a vertex was read with, and how it is written with them. -/
theorem exists_edges {d : Datum} {v : Vertex} (decoded : decode? d = some v) {name : String}
    (side : name ∈ ["preds", "succs"]) : ∃ e s, d.field? fieldNames name = some e ∧
      NodeSet.decode? e = some s ∧ v.encode.field? fieldNames name = some (NodeSet.encode s) := by
  rw [decode?_eq] at decoded
  obtain ⟨role, -, decoded⟩ := Option.bind_eq_some_iff.mp decoded
  obtain ⟨instructions, -, decoded⟩ := Option.bind_eq_some_iff.mp decoded
  obtain ⟨preds, before, decoded⟩ := Option.bind_eq_some_iff.mp decoded
  obtain ⟨succs, after, rfl⟩ := Option.map_eq_some_iff.mp decoded
  simp only [List.mem_cons, List.not_mem_nil, or_false] at side
  rcases side with rfl | rfl
  · obtain ⟨e, found, read⟩ := Option.bind_eq_some_iff.mp before
    exact ⟨e, preds, found, read, rfl⟩
  · obtain ⟨e, found, read⟩ := Option.bind_eq_some_iff.mp after
    exact ⟨e, succs, found, read, rfl⟩

end Vertex

theorem Table.decode?_eq {w : Nat} {α : Type} (item? : Datum → Option α) (d : Datum) :
    Table.decode? (w := w) item? d =
      ((d.field? ["storage"] "storage").bind (Datum.list? item?)).map ofList := by
  rcases d.fields?_singleton "storage" with ⟨read, lost⟩ | ⟨field, read, found⟩
  · rw [decode?, read, lost]
    rfl
  · rw [decode?, read, found]
    cases field <;> rfl

theorem Table.reads {w : Nat} {α : Type} {item? : Datum → Option α} {encode : α → Datum}
    (reads : Datum.Reads item? encode) :
    Datum.Reads (Table.decode? item?) (Table.encode encode (w := w)) := by
  intro t
  have stored : (t.encode encode).field? ["storage"] "storage" =
      some (.list (t.values.map encode)) := rfl
  rw [decode?_eq, stored, Option.bind_some, reads.list]
  rfl

namespace Graph

theorem decode?_eq (d : Datum) : decode? d =
    ((d.field? ["nodes"] "nodes").bind (Table.decode? Vertex.decode?)).map Graph.mk := by
  rcases d.fields?_singleton "nodes" with ⟨read, lost⟩ | ⟨field, read, found⟩
  · rw [decode?, read, lost]
    rfl
  · rw [decode?, read, found]
    cases field <;> rfl

theorem reads : Datum.Reads Graph.decode? Graph.encode := by
  intro g
  have nodes : g.encode.field? ["nodes"] "nodes" = some (g.vertices.encode Vertex.encode) := rfl
  rw [decode?_eq, nodes, Option.bind_some, Table.reads Vertex.reads]
  rfl

/-- Data of a graph that agree up to the order and number of the edges they list. -/
def Alike : Datum → Datum → Prop :=
  Datum.Alike ["nodes"] fun _ => Datum.Alike ["storage"] fun _ => Datum.Each Vertex.Alike

theorem decode?_congr {d e : Datum} (alike : Alike d e) : decode? d = decode? e := by
  rw [decode?_eq, decode?_eq, alike.bind_field?_eq "nodes" (by decide)]
  intro x y tables
  rw [Table.decode?_eq, Table.decode?_eq, tables.bind_field?_eq "storage" (by decide)]
  exact fun x y each => each.list?_eq fun _ _ => Vertex.decode?_congr

/-- What the vertex at a position lists as its edges on one side. -/
def listed? (side : String) (k : Nat) (d : Datum) : Option (List Datum) := do
  let table ← d.field? ["nodes"] "nodes"
  let storage ← table.field? ["storage"] "storage"
  let vertices ← storage.items?
  let vertex ← vertices[k]?
  let edges ← vertex.field? Vertex.fieldNames side
  edges.items?

theorem exists_vertices {d : Datum} {g : Graph} (decoded : decode? d = some g) :
    ∃ table xs, d.field? ["nodes"] "nodes" = some table ∧
      table.field? ["storage"] "storage" = some (.list xs) ∧
      List.Forall₂ (fun x v => Vertex.decode? x = some v) xs g.vertices.values := by
  rw [decode?_eq] at decoded
  obtain ⟨vertices, read, rfl⟩ := Option.map_eq_some_iff.mp decoded
  obtain ⟨table, found, filled⟩ := Option.bind_eq_some_iff.mp read
  rw [Table.decode?_eq] at filled
  obtain ⟨vs, all, rfl⟩ := Option.map_eq_some_iff.mp filled
  obtain ⟨storage, stored, items⟩ := Option.bind_eq_some_iff.mp all
  obtain ⟨xs, rfl, each⟩ := Datum.list?_eq_some_iff.mp items
  exact ⟨table, xs, found, stored, each⟩

theorem listed?_eq {d table x e : Datum} {xs : List Datum} {k : Nat} {side : String}
    (found : d.field? ["nodes"] "nodes" = some table)
    (stored : table.field? ["storage"] "storage" = some (.list xs)) (hx : xs[k]? = some x)
    (field : x.field? Vertex.fieldNames side = some e) : listed? side k d = e.items? := by
  simp only [listed?, found, stored, Datum.items?, hx, field, Option.bind_eq_bind, Option.bind_some]

/-- A graph that was read is written with the edges that were listed, in ascending
order and each of them once. -/
theorem listed?_encode {d : Datum} {g : Graph} (decoded : decode? d = some g) {k : Nat}
    (inside : k < g.size) {side : String} (known : side ∈ ["preds", "succs"]) :
    ∃ (written : List Datum) (ids : List Nat), listed? side k d = some written ∧
      listed? side k g.encode = some (ids.map fun n => .int n) ∧ ids.Pairwise (· < ·) ∧
      ∀ x, x ∈ ids.map (fun n => .int n) ↔ x ∈ written := by
  obtain ⟨table, xs, found, stored, each⟩ := exists_vertices decoded
  have hv : k < g.vertices.values.length := inside
  have hx : k < xs.length := each.length_eq ▸ hv
  obtain ⟨e, s, field, read, again⟩ := Vertex.exists_edges (each.get hx hv) known
  obtain ⟨written, rfl, nodes, members⟩ := NodeSet.decode?_eq_some_iff.mp read
  have items : (s.toList.map (·.index)).map (fun n : Nat => Datum.int n) =
      s.toList.map NodeSet.item := List.map_map
  refine ⟨written, s.toList.map (·.index), ?_, ?_, List.pairwise_map.mpr s.ascending, ?_⟩
  · exact listed?_eq found stored (List.getElem?_eq_getElem hx) field
  · have vertex : (g.vertices.values.map Vertex.encode)[k]? =
        some (g.vertices.values.get ⟨k, hv⟩).encode := by
      rw [List.getElem?_map, List.getElem?_eq_getElem hv]
      rfl
    rw [items]
    exact listed?_eq rfl rfl vertex again
  · intro x
    rw [items, List.mem_map]
    constructor
    · rintro ⟨n, member, rfl⟩
      exact (members n).mp member
    · intro member
      obtain ⟨n, rfl⟩ := nodes x member
      exact ⟨n, (members n).mpr member, rfl⟩

end Graph

/-- Values survive being written as plain data, and the edges of a graph that data list
count as sets. -/
theorem data_keep_values :
    (∀ i : Instruction, Instruction.decode? i.encode = some i) ∧
    (∀ b : Body, Body.decode? b.encode = some b) ∧
    (∀ (w : Nat) (t : Table w String), Table.decode? Datum.text? (t.encode .text) = some t) ∧
    (∀ g : Graph, Graph.decode? g.encode = some g) ∧
    (∀ d e, Graph.Alike d e → Graph.decode? d = Graph.decode? e) ∧
    ∀ d g, Graph.decode? d = some g → ∀ k, k < g.size → ∀ side ∈ ["preds", "succs"],
      ∃ (written : List Datum) (ids : List Nat), Graph.listed? side k d = some written ∧
        Graph.listed? side k g.encode = some (ids.map fun n => .int n) ∧ ids.Pairwise (· < ·) ∧
        ∀ x, x ∈ ids.map (fun n => .int n) ↔ x ∈ written := by
  refine ⟨Instruction.reads, Body.reads, fun w => Table.reads fun _ => rfl, Graph.reads,
    fun d e => Graph.decode?_congr, ?_⟩
  intro d g decoded k inside side known
  exact Graph.listed?_encode decoded inside known

/-- The data of a graph of two vertices, the first of which lists its successors in
some way. -/
def sampleListing (succs : List Nat) : Datum :=
  .record [("nodes", .record [("storage", .list [
    .record [("kind", .text "Enter"), ("insts", .list []), ("preds", .list []),
      ("succs", .list (succs.map fun n => .int n))],
    .list [.text "Exit", .list [], .list [.int 0], .list []]])])]

theorem repeated_edges_of_sampleListing :
    Graph.Alike (sampleListing [1, 0, 1]) (sampleListing [0, 1]) ∧
    Graph.decode? (sampleListing [1, 0, 1]) = Graph.decode? (sampleListing [0, 1]) ∧
    ∃ g, Graph.decode? (sampleListing [1, 0, 1]) = some g ∧ 0 < g.size ∧
      ∃ (written : List Datum) (ids : List Nat),
        Graph.listed? "succs" 0 (sampleListing [1, 0, 1]) = some written ∧
        Graph.listed? "succs" 0 g.encode = some (ids.map fun n => .int n) ∧
        ids.Pairwise (· < ·) ∧ ∀ x, x ∈ ids.map (fun n => .int n) ↔ x ∈ written := by
  obtain ⟨-, -, -, -, congr, relisted⟩ := data_keep_values
  have succs : Datum.SameItems (.list [.int 1, .int 0, .int 1]) (.list [.int 0, .int 1]) := by
    refine .list fun x => ?_
    simp only [List.mem_cons, List.not_mem_nil, or_false]
    grind
  have first : Vertex.FieldAlike "succs" (.list [.int 1, .int 0, .int 1])
      (.list [.int 0, .int 1]) := .inr ⟨.inr rfl, succs⟩
  have alike : Graph.Alike (sampleListing [1, 0, 1]) (sampleListing [0, 1]) :=
    .named (.cons ⟨rfl, .named (.cons ⟨rfl, .list (.cons (.named (.cons ⟨rfl, .inl rfl⟩
      (.cons ⟨rfl, .inl rfl⟩ (.cons ⟨rfl, .inl rfl⟩ (.cons ⟨rfl, first⟩ .nil)))))
      (.cons (.same _) .nil))⟩ .nil)⟩ .nil)
  have decoded : (Graph.decode? (sampleListing [1, 0, 1])).any (fun g => 0 < g.size) = true := by
    decide
  obtain ⟨g, read, nonempty⟩ := (Option.any_eq_true _ _).mp decoded
  have inside := of_decide_eq_true nonempty
  exact ⟨alike, congr _ _ alike, g, read, inside, relisted _ g read 0 inside "succs" (by decide)⟩

end FlowGraph
