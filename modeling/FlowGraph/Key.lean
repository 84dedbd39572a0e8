/-! Keys of a fixed number of bits, and finite sets of them.

A key is made from any index by keeping its low bits. A set of keys is kept as
its strictly ascending list, so two sets with the same members are equal. -/
namespace FlowGraph

/-- How many keys of `w` bits there are. -/
def Key.count (w : Nat) : Nat := Nat.pow 2 w

/-- A key of `w` bits. -/
@[ext]
structure Key (w : Nat) where
  index : Nat
  index_lt : index < Key.count w
deriving DecidableEq

namespace Key

/-- The key that keeps the low `w` bits of an index. -/
def ofIndex (w index : Nat) : Key w :=
  ⟨index % count w, Nat.mod_lt _ (Nat.two_pow_pos w)⟩

/-- The display of a key: a lead for its kind and its index. -/
def display {w : Nat} (lead : String) (k : Key w) : String := lead ++ toString k.index

@[simp] theorem index_ofIndex (w i : Nat) : (ofIndex w i).index = i % count w := rfl

theorem index_ofIndex_of_lt {w i : Nat} (h : i < count w) : (ofIndex w i).index = i :=
  Nat.mod_eq_of_lt h

@[simp] theorem ofIndex_index {w : Nat} (k : Key w) : ofIndex w k.index = k :=
  Key.ext (index_ofIndex_of_lt k.index_lt)

/-- Puts a key into an ascending list, unless the list has it already. -/
def insertAscending {w : Nat} (k : Key w) : List (Key w) → List (Key w)
  | [] => [k]
  | m :: rest =>
      if k.index < m.index then k :: m :: rest
      else if k = m then m :: rest
      else m :: insertAscending k rest

theorem mem_insertAscending {w : Nat} {k m : Key w} {ks : List (Key w)} :
    m ∈ insertAscending k ks ↔ m = k ∨ m ∈ ks := by
  induction ks with
  | nil => simp [insertAscending]
  | cons x rest ih =>
      rw [insertAscending]
      split
      · simp
      · split
        · next same => subst same; simp
        · simp [ih, or_left_comm]

theorem pairwise_insertAscending {w : Nat} (k : Key w) {ks : List (Key w)}
    (h : ks.Pairwise (·.index < ·.index)) :
    (insertAscending k ks).Pairwise (·.index < ·.index) := by
  induction ks with
  | nil => simp [insertAscending]
  | cons x rest ih =>
      obtain ⟨above, tail⟩ := List.pairwise_cons.mp h
      rw [insertAscending]
      split
      · next less =>
          refine List.pairwise_cons.mpr ⟨fun m hm => ?_, h⟩
          rcases List.mem_cons.mp hm with rfl | hm
          · exact less
          · exact Nat.lt_trans less (above m hm)
      · split
        · exact h
        · next notLess notSame =>
            refine List.pairwise_cons.mpr ⟨fun m hm => ?_, ih tail⟩
            rcases mem_insertAscending.mp hm with rfl | hm
            · have : x.index ≠ m.index := fun same => notSame (Key.ext same.symm)
              omega
            · exact above m hm

/-- An ascending list is determined by its members. -/
theorem eq_of_ascending {w : Nat} {ks ls : List (Key w)} (hk : ks.Pairwise (·.index < ·.index))
    (hl : ls.Pairwise (·.index < ·.index)) (same : ∀ k, k ∈ ks ↔ k ∈ ls) : ks = ls := by
  induction ks generalizing ls with
  | nil =>
      cases ls with
      | nil => rfl
      | cons l ls => exact absurd ((same l).mpr List.mem_cons_self) List.not_mem_nil
  | cons k ks ih =>
      cases ls with
      | nil => exact absurd ((same k).mp List.mem_cons_self) List.not_mem_nil
      | cons l ls =>
          obtain ⟨aboveK, tailK⟩ := List.pairwise_cons.mp hk
          obtain ⟨aboveL, tailL⟩ := List.pairwise_cons.mp hl
          have heads : k = l := by
            rcases List.mem_cons.mp ((same k).mp List.mem_cons_self) with h | h
            · exact h
            · rcases List.mem_cons.mp ((same l).mpr List.mem_cons_self) with h' | h'
              · exact h'.symm
              · exact absurd (aboveL k h) (Nat.lt_asymm (aboveK l h'))
          subst heads
          refine congrArg (k :: ·) (ih tailK tailL fun m => ⟨fun hm => ?_, fun hm => ?_⟩)
          · rcases List.mem_cons.mp ((same m).mp (List.mem_cons_of_mem k hm)) with rfl | h
            · exact absurd (aboveK m hm) (Nat.lt_irrefl _)
            · exact h
          · rcases List.mem_cons.mp ((same m).mpr (List.mem_cons_of_mem k hm)) with rfl | h
            · exact absurd (aboveL m hm) (Nat.lt_irrefl _)
            · exact h

end Key

/-- A finite set of keys, listed in ascending order. -/
structure KeySet (w : Nat) where
  toList : List (Key w)
  ascending : toList.Pairwise (·.index < ·.index)
deriving DecidableEq

namespace KeySet

variable {w : Nat}

def empty : KeySet w := ⟨[], .nil⟩

instance : EmptyCollection (KeySet w) := ⟨empty⟩

instance : Inhabited (KeySet w) := ⟨empty⟩

instance : Membership (Key w) (KeySet w) := ⟨fun s k => k ∈ s.toList⟩

instance (k : Key w) (s : KeySet w) : Decidable (k ∈ s) :=
  inferInstanceAs (Decidable (k ∈ s.toList))

def insert (s : KeySet w) (k : Key w) : KeySet w :=
  ⟨Key.insertAscending k s.toList, Key.pairwise_insertAscending k s.ascending⟩

/-- The set of the keys of a list, whatever their order and number. -/
def ofList (ks : List (Key w)) : KeySet w := ks.foldl insert empty

def isEmpty (s : KeySet w) : Bool := s.toList.isEmpty

theorem mem_toList {s : KeySet w} {k : Key w} : k ∈ s.toList ↔ k ∈ s := Iff.rfl

@[simp] theorem not_mem_empty (k : Key w) : ¬ k ∈ (∅ : KeySet w) := List.not_mem_nil

@[simp] theorem mem_insert {s : KeySet w} {k m : Key w} : m ∈ s.insert k ↔ m = k ∨ m ∈ s :=
  Key.mem_insertAscending

/-- Two sets with the same members are equal. -/
theorem eq_of_mem_iff {s t : KeySet w} (same : ∀ k, k ∈ s ↔ k ∈ t) : s = t := by
  cases s with
  | mk ks hk =>
      cases t with
      | mk ls hl =>
          have lists : ks = ls := Key.eq_of_ascending hk hl same
          subst lists
          rfl

theorem isEmpty_iff {s : KeySet w} : s.isEmpty = true ↔ s = ∅ := by
  rw [isEmpty, List.isEmpty_iff]
  constructor
  · intro none
    apply eq_of_mem_iff
    intro k
    rw [← mem_toList, none]
    exact ⟨False.elim ∘ List.not_mem_nil, False.elim ∘ not_mem_empty k⟩
  · rintro rfl
    rfl

theorem mem_foldl_insert {ks : List (Key w)} {s : KeySet w} {k : Key w} :
    k ∈ ks.foldl insert s ↔ k ∈ ks ∨ k ∈ s := by
  induction ks generalizing s with
  | nil => simp
  | cons x rest ih => simp [ih, or_assoc, or_left_comm]

@[simp] theorem mem_ofList {ks : List (Key w)} {k : Key w} : k ∈ ofList ks ↔ k ∈ ks := by
  refine mem_foldl_insert.trans ?_
  exact or_iff_left (List.not_mem_nil)

end KeySet
end FlowGraph
