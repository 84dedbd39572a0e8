import FlowGraph.Proofs.Layout
import Mathlib.Data.List.Find
import Mathlib.Data.List.Nodup
import Mathlib.Data.Set.Function

/-! Construction looks at instructions only through what they do to control: which
target an instruction carries, whether a block ends after it, and where it jumps
to. A change of instructions that keeps these three keeps the edits, up to the
change itself, and replaying the changed edits makes the same change in the graph.
Names may thus be exchanged for others as long as different ones stay different,
texts may be exchanged freely, and a label that nothing refers to may come or go. -/
namespace FlowGraph

/-! Changing the instructions in a graph. -/

def Table.map {w : Nat} {α β : Type} (f : α → β) (t : Table w α) : Table w β := ⟨t.entries.map f⟩

def Vertex.mapInstructions (f : Instruction → Instruction) (v : Vertex) : Vertex :=
  { v with instructions := v.instructions.map f }

/-- The graph with each instruction changed where it stands. -/
def Graph.mapInstructions (f : Instruction → Instruction) (g : Graph) : Graph :=
  ⟨g.vertices.map (Vertex.mapInstructions f)⟩

namespace Table

variable {w : Nat} {α β : Type}

@[simp] theorem size_map (f : α → β) (t : Table w α) : (t.map f).size = t.size := Array.size_map

theorem map_push (f : α → β) (t : Table w α) (a : α) :
    (t.push a).map f = (t.map f).push (f a) := by
  simp [push, map]

theorem modify?_map {f : α → β} {change : α → α} {change' : β → β}
    (commute : ∀ a, f (change a) = change' (f a)) (t : Table w α) (k : Key w) :
    (t.map f).modify? k change' = (t.modify? k change).map (Table.map f) := by
  have present : (t.map f).contains k = t.contains k := by rw [contains, contains, size_map]
  rw [modify?, modify?, present]
  split
  · rw [Option.map_some, map]
    congr 2
    ext i h h'
    · simp
    · simp only [Array.getElem_modify, Array.getElem_map]
      split
      · exact (commute _).symm
      · rfl
  · rfl

end Table

namespace Construction

/-- An edit about changed instructions. -/
def Edit.map (f : Instruction → Instruction) (r : Label → Label) : Edit → Edit
  | .allocate node => .allocate node
  | .aim label node => .aim (r label) node
  | .place node i => .place node (f i)
  | .connect source destination => .connect source destination

variable {f : Instruction → Instruction} {r : Label → Label}

theorem perform?_map (g : Graph) (e : Edit) :
    (e.map f r).perform? (g.mapInstructions f) = (e.perform? g).map (Graph.mapInstructions f) := by
  cases e with
  | allocate node =>
      have key : (g.mapInstructions f).vertices.nextKey = g.vertices.nextKey :=
        congrArg (Key.ofIndex 32) (Table.size_map _ _)
      rw [Edit.map, Edit.perform?, Edit.perform?, key, apply_ite (Option.map _)]
      congr 2
      exact congrArg Graph.mk
        (Table.map_push (Vertex.mapInstructions f) g.vertices { role := .block }).symm
  | aim label node => rfl
  | place node i =>
      have placed : ∀ v : Vertex, (v.addInstruction i).mapInstructions f =
          (v.mapInstructions f).addInstruction (f i) := by
        intro v
        simp [Vertex.addInstruction, Vertex.mapInstructions]
      simp only [Edit.map, Edit.perform?, Graph.mapInstructions]
      rw [Table.modify?_map placed, Option.map_map, Option.map_map]
      rfl
  | connect source destination =>
      have out : ∀ v : Vertex, (v.addSucc destination).mapInstructions f =
          (v.mapInstructions f).addSucc destination := fun v => rfl
      have into : ∀ v : Vertex, (v.addPred source).mapInstructions f =
          (v.mapInstructions f).addPred source := fun v => rfl
      simp only [Edit.map, Edit.perform?, Graph.mapInstructions]
      rw [Table.modify?_map out]
      cases g.vertices.modify? source (·.addSucc destination) with
      | none => rfl
      | some t =>
          simp only [Option.map_some]
          rw [Table.modify?_map into, Option.map_map, Option.map_map]
          rfl

/-- Changed edits make the changed graph. -/
theorem replay?_map (g : Graph) (es : List Edit) :
    replay? (g.mapInstructions f) (es.map (Edit.map f r)) =
      (replay? g es).map (Graph.mapInstructions f) := by
  induction es generalizing g with
  | nil => rfl
  | cons e es ih =>
      simp only [replay?, List.map_cons, List.foldlM_cons, perform?_map] at ih ⊢
      cases e.perform? g with
      | none => rfl
      | some next => exact ih next

/-! What construction sees of an instruction. -/

/-- Construction sees no difference between an instruction and the changed one,
among the targets of the one and of the other list. -/
structure Alike (ts ts' : List Label) (i j : Instruction) : Prop where
  carries : j.label.bind (targetNode? ts') = i.label.bind (targetNode? ts)
  after : Boundary.after j.op = Boundary.after i.op
  jumps : jump? ts' j.op = jump? ts i.op

theorem Alike.opening {ts ts' : List Label} {i j : Instruction} (alike : Alike ts ts' i j)
    (b : Boundary) : opening ts' b j = opening ts b i := by
  rw [Construction.opening, Construction.opening, alike.carries]

theorem Alike.advance {ts ts' : List Label} {i j : Instruction} (alike : Alike ts ts' i j)
    (c : Cursor) : c.advance ts' j = c.advance ts i := by
  rw [Cursor.advance, Cursor.advance, alike.opening, alike.after]

theorem map_openingEdits (c : Cursor) (o : Opening) :
    (c.openingEdits o).map (Edit.map f r) = c.openingEdits o := by
  have falls : ∀ n, (c.fallThrough n).map (Edit.map f r) = c.fallThrough n := by
    intro n
    unfold Cursor.fallThrough
    split <;> rfl
  cases o with
  | stay => rfl
  | target n => exact falls n
  | fresh => exact congrArg (_ :: ·) (falls _)

theorem instructionEdits_map {ts ts' : List Label} {i : Instruction} (alike : Alike ts ts' i (f i))
    (c : Cursor) :
    instructionEdits ts' c (f i) = (instructionEdits ts c i).map (Edit.map f r) := by
  have jumps : ∀ (n : Node) (o : Option Node),
      (o.toList.map (Edit.connect n)).map (Edit.map f r) = o.toList.map (.connect n) := by
    intro n o
    cases o <;> rfl
  simp only [instructionEdits, alike.opening, alike.jumps, List.map_append, List.map_cons,
    map_openingEdits, jumps, Edit.map]

theorem linkEdits_map {ts ts' : List Label} {is : List Instruction}
    (alike : ∀ i ∈ is, Alike ts ts' i (f i)) (c : Cursor) :
    linkEdits ts' c (is.map f) = (linkEdits ts c is).map (Edit.map f r) := by
  induction is generalizing c with
  | nil => rfl
  | cons i rest ih =>
      obtain ⟨first, others⟩ := List.forall_mem_cons.mp alike
      rw [List.map_cons, linkEdits, linkEdits, List.map_append, instructionEdits_map first,
        first.advance, ih others]

theorem targetEdits_map (ts : List Label) :
    targetEdits (ts.map r) = (targetEdits ts).map (Edit.map f r) := by
  rw [targetEdits, targetEdits]
  generalize 0 = first
  induction ts generalizing first with
  | nil => rfl
  | cons l ts ih =>
      simp only [List.map_cons, List.zipIdx_cons, List.flatMap_cons, List.map_append, ih]
      rfl

/-- A change of instructions, and of the targets with them, that construction
does not see in a list. -/
structure Unseen (f : Instruction → Instruction) (r : Label → Label) (is : List Instruction) :
    Prop where
  targets_map : targets (is.map f) = (targets is).map r
  alike : ∀ i ∈ is, Alike (targets is) ((targets is).map r) i (f i)

theorem mapInstructions_initial : Graph.initial.mapInstructions f = .initial := by
  simp [Graph.initial, Graph.mapInstructions, Table.ofList, Table.map, Vertex.mapInstructions]

theorem Unseen.replay? {is : List Instruction} (unseen : Unseen f r is) :
    replay? .initial (edits (is.map f)) =
      (replay? .initial (edits is)).map (Graph.mapInstructions f) := by
  have same : edits (is.map f) = (edits is).map (Edit.map f r) := by
    rw [edits, edits, unseen.targets_map, targetEdits_map, List.length_map,
      linkEdits_map unseen.alike, List.map_append]
  rw [same, ← @replay?_map f r, mapInstructions_initial]

/-! Names that are exchanged for others. -/

end Construction

/-- New names for labels, and new texts for plain instructions, conditions and
returned values. -/
structure Renaming where
  label : Label → Label
  text : String → String
  condition : String → String
  value : String → String

def Op.rename (ρ : Renaming) : Op → Op
  | .plain text => .plain (ρ.text text)
  | .goto target => .goto (ρ.label target)
  | .branch condition target => .branch (ρ.condition condition) (ρ.label target)
  | .ret value => .ret (value.map ρ.value)

def Instruction.rename (ρ : Renaming) (i : Instruction) : Instruction :=
  ⟨i.label.map ρ.label, i.op.rename ρ⟩

namespace Construction

def Fault.rename (r : Label → Label) : Fault → Fault
  | .duplicateLabel label => .duplicateLabel (r label)
  | .undefinedTarget label => .undefinedTarget (r label)
  | .missingKey cause => .missingKey cause

/-- The labels that occur in a list, on an instruction or in a branch. -/
def occurring (is : List Instruction) : Set Label := {l | l ∈ labels is ∨ l ∈ references is}

variable {ρ : Renaming} {is : List Instruction} {r : Label → Label}

theorem labels_rename : labels (is.map (·.rename ρ)) = (labels is).map ρ.label := by
  rw [labels, labels, List.filterMap_map, List.map_filterMap]
  rfl

theorem references_rename : references (is.map (·.rename ρ)) = (references is).map ρ.label := by
  rw [references, references, List.filterMap_map, List.map_filterMap]
  congr 1
  funext i
  obtain ⟨label, op⟩ := i
  cases op <;> rfl

section
variable {s : Set Label}

theorem mem_map_iff (injective : Set.InjOn r s) {ls : List Label} (inside : ∀ m ∈ ls, m ∈ s)
    {l : Label} (member : l ∈ s) : r l ∈ ls.map r ↔ l ∈ ls := by
  rw [List.mem_map]
  constructor
  · rintro ⟨m, found, same⟩
    rwa [← injective (inside m found) member same]
  · intro found
    exact ⟨l, found, rfl⟩

theorem firstRepeat?_map (injective : Set.InjOn r s) {seen ls : List Label}
    (before : ∀ l ∈ seen, l ∈ s) (inside : ∀ l ∈ ls, l ∈ s) :
    firstRepeat? (seen.map r) (ls.map r) = (firstRepeat? seen ls).map r := by
  induction ls generalizing seen with
  | nil => rfl
  | cons l rest ih =>
      obtain ⟨first, others⟩ := List.forall_mem_cons.mp inside
      have again : (seen.map r).contains (r l) = seen.contains l := by
        rw [Bool.eq_iff_iff, List.contains_iff_mem, List.contains_iff_mem,
          mem_map_iff injective before first]
      rw [List.map_cons, firstRepeat?, firstRepeat?, again]
      split
      · rfl
      · rw [← List.map_cons, ih (List.forall_mem_cons.mpr ⟨first, before⟩) others]

theorem eraseDups_map (injective : Set.InjOn r s) :
    ∀ {ls : List Label}, (∀ l ∈ ls, l ∈ s) → (ls.map r).eraseDups = ls.eraseDups.map r
  | [], _ => rfl
  | l :: rest, inside => by
      obtain ⟨first, others⟩ := List.forall_mem_cons.mp inside
      have kept : (rest.map r).filter (fun m => !m == r l) =
          (rest.filter fun m => !m == l).map r := by
        rw [List.filter_map]
        congr 1
        apply List.filter_congr
        intro m member
        simp [injective.eq_iff (others m member) first]
      have fewer : ∀ m ∈ rest.filter (fun m => !m == l), m ∈ s := fun m member =>
        others m (List.mem_filter.mp member).1
      rw [List.map_cons, List.eraseDups_cons, List.eraseDups_cons, List.map_cons, kept,
        eraseDups_map injective fewer]
termination_by ls => ls.length
decreasing_by exact Nat.lt_succ_of_le (List.length_filter_le _ rest)

theorem targetNode?_map (injective : Set.InjOn r s) {ts : List Label} (inside : ∀ m ∈ ts, m ∈ s)
    {l : Label} (member : l ∈ s) : targetNode? (ts.map r) (r l) = targetNode? ts l := by
  have index : (ts.map r).idxOf? (r l) = ts.idxOf? l := by
    induction ts with
    | nil => rfl
    | cons t ts ih =>
        obtain ⟨first, others⟩ := List.forall_mem_cons.mp inside
        have same : (r t == r l) = (t == l) := by
          rw [Bool.eq_iff_iff, beq_iff_eq, beq_iff_eq, injective.eq_iff first member]
        rw [List.map_cons, List.idxOf?_cons, List.idxOf?_cons, same, ih others]
  rw [targetNode?, targetNode?, index]

end

theorem contains_labels_rename (injective : Set.InjOn ρ.label (occurring is)) {l : Label}
    (member : l ∈ references is) :
    (labels (is.map (·.rename ρ))).contains (ρ.label l) = (labels is).contains l := by
  rw [labels_rename, Bool.eq_iff_iff, List.contains_iff_mem, List.contains_iff_mem]
  exact mem_map_iff injective (fun _ => Or.inl) (.inr member)

theorem fault?_rename (injective : Set.InjOn ρ.label (occurring is)) :
    fault? (is.map (·.rename ρ)) = (fault? is).map (Fault.rename ρ.label) := by
  have repeats : firstRepeat? [] (labels (is.map (·.rename ρ))) =
      (firstRepeat? [] (labels is)).map ρ.label := by
    rw [labels_rename]
    exact @firstRepeat?_map _ _ injective [] _ (by simp) fun _ => Or.inl
  have undefined : firstUndefined? (is.map (·.rename ρ)) = (firstUndefined? is).map ρ.label := by
    rw [firstUndefined?, firstUndefined?, references_rename, List.find?_map]
    congr 1
    apply List.find?_congr
    intro l member
    exact congrArg (!·) (contains_labels_rename injective member)
  rw [fault?, fault?, repeats, undefined]
  cases firstRepeat? [] (labels is) with
  | some l => rfl
  | none => cases firstUndefined? is <;> rfl

theorem WellLabelled.rename (h : WellLabelled is) (injective : Set.InjOn ρ.label (occurring is)) :
    WellLabelled (is.map (·.rename ρ)) := by
  rw [← fault?_eq_none_iff] at h ⊢
  rw [fault?_rename injective, h, Option.map_none]

theorem WellLabelled.unseen_rename (h : WellLabelled is)
    (injective : Set.InjOn ρ.label (occurring is)) : Unseen (·.rename ρ) ρ.label is := by
  have carried : ∀ l ∈ occurring is,
      targetNode? ((targets is).map ρ.label) (ρ.label l) = targetNode? (targets is) l := by
    intro l member
    exact targetNode?_map injective (fun m found => .inr (h.mem_targets.mp found)) member
  constructor
  · rw [(h.rename injective).targets_eq, references_rename, h.targets_eq]
    exact eraseDups_map injective fun _ => Or.inr
  · intro i member
    obtain ⟨label, op⟩ := i
    constructor
    · cases label with
      | none => rfl
      | some l => exact carried l (.inl (List.mem_filterMap.mpr ⟨_, member, rfl⟩))
    · cases op <;> rfl
    · cases op with
      | plain text => rfl
      | goto l => exact carried l (.inr (List.mem_filterMap.mpr ⟨_, member, rfl⟩))
      | branch condition l => exact carried l (.inr (List.mem_filterMap.mpr ⟨_, member, rfl⟩))
      | ret value => rfl

/-! A label that nothing refers to. -/

end Construction

/-- Takes a label off an instruction that carries it. -/
def Instruction.dropLabel (l : Label) (i : Instruction) : Instruction :=
  { i with label := i.label.filter (· != l) }

theorem Instruction.dropLabel_of_ne {l : Label} {i : Instruction} (other : i.label ≠ some l) :
    i.dropLabel l = i := by
  obtain ⟨label, op⟩ := i
  cases label with
  | none => rfl
  | some m =>
      have differs : (m != l) = true := by simpa using other
      rw [dropLabel, Option.filter, if_pos differs]

theorem Instruction.dropLabel_of_eq {l : Label} {i : Instruction} (carried : i.label = some l) :
    i.dropLabel l = { i with label := none } := by
  simp [dropLabel, carried, Option.filter]

namespace Construction

variable {l : Label}

theorem labels_dropLabel : labels (is.map (·.dropLabel l)) = (labels is).filter (· != l) := by
  rw [labels, labels, List.filterMap_map, List.filter_filterMap]
  rfl

theorem references_dropLabel : references (is.map (·.dropLabel l)) = references is := by
  rw [references, references, List.filterMap_map]
  rfl

theorem labels_split (front back : List Instruction) (i : Instruction) :
    labels (front ++ i :: back) = labels front ++ i.label.toList ++ labels back := by
  rw [labels, List.filterMap_append, List.filterMap_cons]
  cases i.label <;> simp [labels]

theorem references_labelled (front back : List Instruction) (i : Instruction) (l : Label) :
    references (front ++ i.labelled l :: back) = references (front ++ i :: back) := by
  rw [references, references, List.filterMap_append, List.filterMap_append]
  rfl

theorem map_dropLabel (absent : l ∉ labels is) : is.map (·.dropLabel l) = is := by
  have same : is.map (·.dropLabel l) = is.map id := List.map_congr_left fun i member =>
    Instruction.dropLabel_of_ne fun carried => absent (List.mem_filterMap.mpr ⟨i, member, carried⟩)
  rw [same, List.map_id]

theorem WellLabelled.dropLabel (h : WellLabelled is) (free : l ∉ references is) :
    WellLabelled (is.map (·.dropLabel l)) := by
  constructor
  · rw [labels_dropLabel]
    exact h.distinct.filter _
  · rw [labels_dropLabel, references_dropLabel]
    intro m member
    refine List.mem_filter.mpr ⟨h.defined m member, ?_⟩
    simpa using ne_of_mem_of_not_mem member free

theorem WellLabelled.unseen_dropLabel (h : WellLabelled is) (free : l ∉ references is) :
    Unseen (·.dropLabel l) id is := by
  have missing : targetNode? (targets is) l = none := by
    rw [← Option.not_isSome_iff_eq_none, targetNode?_isSome_iff, h.mem_targets]
    exact free
  constructor
  · rw [(h.dropLabel free).targets_eq, references_dropLabel, h.targets_eq, List.map_id]
  · intro i _
    rw [List.map_id]
    refine ⟨?_, rfl, rfl⟩
    by_cases carried : i.label = some l
    · rw [Instruction.dropLabel_of_eq carried, carried]
      exact missing.symm
    · rw [Instruction.dropLabel_of_ne carried]

/-- Taking the one label away that an instruction carries is a change of the whole list. -/
theorem WellLabelled.map_dropLabel {front back : List Instruction} {i : Instruction}
    (h : WellLabelled (front ++ i :: back)) (carried : i.label = some l) :
    (front ++ i :: back).map (·.dropLabel l) = front ++ { i with label := none } :: back := by
  have distinct := h.distinct
  rw [labels_split, carried, Option.toList_some, List.append_assoc, List.singleton_append,
    List.nodup_middle, List.nodup_cons, List.mem_append, not_or] at distinct
  rw [List.map_append, List.map_cons, Instruction.dropLabel_of_eq carried,
    Construction.map_dropLabel distinct.1.1, Construction.map_dropLabel distinct.1.2]

/-- A label that occurs nowhere may be given to an instruction that has none. -/
theorem WellLabelled.labelled {front back : List Instruction} {i : Instruction}
    (h : WellLabelled (front ++ i :: back)) (unlabelled : i.label = none)
    (absent : l ∉ labels (front ++ i :: back)) : WellLabelled (front ++ i.labelled l :: back) := by
  have before := labels_split front back i
  have behind := labels_split front back (i.labelled l)
  rw [unlabelled, Option.toList_none, List.append_nil] at before
  have carried : (i.labelled l).label = some l := rfl
  rw [carried, Option.toList_some, List.append_assoc, List.singleton_append] at behind
  constructor
  · rw [behind, List.nodup_middle, List.nodup_cons, ← before]
    exact ⟨absent, h.distinct⟩
  · rw [references_labelled, behind]
    intro m member
    have defined := h.defined m member
    rw [before] at defined
    simp only [List.mem_append, List.mem_cons] at defined ⊢
    tauto

/-! Construction. -/

theorem WellLabelled.build_eq (h : WellLabelled is) :
    build is =
      ((replay? .initial (edits is)).elim (.error (.missingKey .missingKey)) .ok) := by
  rw [build, fault?_eq_none_iff.mpr h]
  cases replay? .initial (edits is) <;> rfl

theorem Unseen.build_map {f : Instruction → Instruction} {g : Graph} (unseen : Unseen f r is)
    (sound : WellLabelled (is.map f)) (built : build is = .ok g) :
    build (is.map f) = .ok (g.mapInstructions f) := by
  rw [sound.build_eq, unseen.replay?, (build_eq_ok built).2]
  rfl

theorem build_rename (injective : Set.InjOn ρ.label (occurring is)) :
    build (is.map (·.rename ρ)) =
      ((build is).map (Graph.mapInstructions (·.rename ρ))).mapError (Fault.rename ρ.label) := by
  cases faulty : fault? is with
  | some fault =>
      rw [build, build, fault?_rename injective, faulty]
      rfl
  | none =>
      have sound := fault?_eq_none_iff.mp faulty
      rw [sound.build_eq, (sound.rename injective).build_eq,
        (sound.unseen_rename injective).replay?]
      cases replay? .initial (edits is) <;> rfl

/-- Renaming the labels of a list so that different ones stay different, with any
change of texts, renames them in its graph or in its fault. Where there is a graph,
a label that no branch refers to can be taken from an instruction or given to one,
and the graph is the same but for that label. -/
theorem construction_natural (is : List Instruction) :
    (∀ ρ : Renaming, Set.InjOn ρ.label (occurring is) →
      build (is.map (·.rename ρ)) =
        ((build is).map (Graph.mapInstructions (·.rename ρ))).mapError (Fault.rename ρ.label)) ∧
    ∀ front i back l g, is = front ++ i :: back → build is = .ok g → l ∉ references is →
      (i.label = some l →
        build (front ++ { i with label := none } :: back) =
          .ok (g.mapInstructions (·.dropLabel l))) ∧
      (i.label = none → l ∉ labels is →
        ∃ h, build (front ++ i.labelled l :: back) = .ok h ∧
          h.mapInstructions (·.dropLabel l) = g) := by
  refine ⟨fun ρ => build_rename, ?_⟩
  rintro front i back l g rfl built free
  have sound := (build_eq_ok built).1
  constructor
  · intro carried
    rw [← sound.map_dropLabel carried]
    exact (sound.unseen_dropLabel free).build_map (sound.dropLabel free) built
  · intro unlabelled absent
    have sound' := sound.labelled unlabelled absent
    rw [← references_labelled front back i l] at free
    have restored : (front ++ i.labelled l :: back).map (·.dropLabel l) = front ++ i :: back := by
      have same : { i.labelled l with label := none } = i := Instruction.ext unlabelled.symm rfl
      rw [sound'.map_dropLabel rfl, same]
    have replayed := (sound'.unseen_dropLabel free).replay?
    rw [restored, (build_eq_ok built).2, eq_comm, Option.map_eq_some_iff] at replayed
    obtain ⟨h, replayed, back⟩ := replayed
    exact ⟨h, by rw [sound'.build_eq, replayed]; rfl, back⟩

/-- A list with a label that no branch refers to and an instruction without one. -/
def sampleSpare : List Instruction :=
  [⟨some ⟨"head"⟩, .branch "again" ⟨"head"⟩⟩, ⟨some ⟨"spare"⟩, .plain "work"⟩, ⟨none, .ret none⟩]

/-- Exchanges the labels of the sample and blanks all other text. -/
def sampleSwap : Renaming where
  label l := if l = ⟨"head"⟩ then ⟨"spare"⟩ else if l = ⟨"spare"⟩ then ⟨"head"⟩ else l
  text _ := ""
  condition _ := ""
  value _ := ""

theorem natural_on_sampleSpare :
    Set.InjOn sampleSwap.label (occurring sampleSpare) ∧ ∃ g h, build sampleSpare = .ok g ∧
      build (sampleSpare.map (·.rename sampleSwap)) =
        .ok (g.mapInstructions (·.rename sampleSwap)) ∧
      build (sampleSpare.take 1 ++ ⟨none, .plain "work"⟩ :: sampleSpare.drop 2) =
        .ok (g.mapInstructions (·.dropLabel ⟨"spare"⟩)) ∧
      build (sampleSpare.take 2 ++ [⟨some ⟨"new"⟩, .ret none⟩]) = .ok h ∧
      h.mapInstructions (·.dropLabel ⟨"new"⟩) = g := by
  have injective : Set.InjOn sampleSwap.label (occurring sampleSpare) := by
    have known : ∀ l ∈ occurring sampleSpare, l = ⟨"head"⟩ ∨ l = ⟨"spare"⟩ := by
      rintro l (member | member)
      · simpa [labels, sampleSpare] using member
      · have head : l = ⟨"head"⟩ := by
          simpa [references, sampleSpare, Instruction.target?, Op.target?] using member
        exact .inl head
    intro a ha b hb
    rcases known a ha with rfl | rfl <;> rcases known b hb with rfl | rfl <;> decide
  obtain ⟨g, built⟩ : ∃ g, build sampleSpare = .ok g := ⟨_, rfl⟩
  obtain ⟨renamed, changed⟩ := construction_natural sampleSpare
  have names := renamed sampleSwap injective
  have without := (changed [_] _ _ ⟨"spare"⟩ g rfl built (by decide)).1 rfl
  obtain ⟨h, labelled, same⟩ :=
    (changed [_, _] _ [] ⟨"new"⟩ g rfl built (by decide)).2 rfl (by decide)
  rw [built] at names
  exact ⟨injective, g, h, built, names, without, labelled, same⟩

end Construction
end FlowGraph
