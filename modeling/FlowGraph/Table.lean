import FlowGraph.Key

/-! Dense tables. Entries are only ever added, so the position of an entry is
its key. A key has a fixed number of bits, and a table with more entries than
keys gives out keys again: such a key reads the earlier entry. -/
namespace FlowGraph

/-- The failure of a look-up whose key is at or past the end of the table. -/
inductive MissingKey where
  | missingKey
deriving DecidableEq

def MissingKey.message (_ : MissingKey) : String := "key not in table"

/-- A table with keys of `w` bits. -/
structure Table (w : Nat) (α : Type) where
  entries : Array α
deriving DecidableEq

namespace Table

variable {w : Nat} {α β : Type}

def empty : Table w α := ⟨#[]⟩

instance : EmptyCollection (Table w α) := ⟨empty⟩

instance : Inhabited (Table w α) := ⟨empty⟩

def ofList (entries : List α) : Table w α := ⟨entries.toArray⟩

def size (t : Table w α) : Nat := t.entries.size

def isEmpty (t : Table w α) : Bool := t.entries.isEmpty

/-- The key that the next added entry gets. -/
def nextKey (t : Table w α) : Key w := Key.ofIndex w t.size

/-- Adds an entry at the end. -/
def push (t : Table w α) (a : α) : Table w α := ⟨t.entries.push a⟩

def contains (t : Table w α) (k : Key w) : Bool := k.index < t.size

def get? (t : Table w α) (k : Key w) : Option α := t.entries[k.index]?

/-- Applies a function to the entry of a key, if the table has it. -/
def modify? (t : Table w α) (k : Key w) (f : α → α) : Option (Table w α) :=
  if t.contains k then some ⟨t.entries.modify k.index f⟩ else none

/-- Replaces the entry of a key, if the table has it. -/
def set? (t : Table w α) (k : Key w) (a : α) : Option (Table w α) := t.modify? k fun _ => a

/-- The entries in order. -/
def values (t : Table w α) : List α := t.entries.toList

/-- The keys of the entries in order. -/
def keys (t : Table w α) : List (Key w) := (List.range t.size).map (Key.ofIndex w)

/-- The entries in order, each with its key. -/
def toList (t : Table w α) : List (Key w × α) :=
  t.values.zipIdx.map fun (a, i) => (Key.ofIndex w i, a)

@[simp] theorem size_push (t : Table w α) (a : α) : (t.push a).size = t.size + 1 := by
  simp [size, push]

@[simp] theorem values_push (t : Table w α) (a : α) : (t.push a).values = t.values ++ [a] := by
  simp [values, push]

@[simp] theorem contains_iff {t : Table w α} {k : Key w} : t.contains k ↔ k.index < t.size := by
  simp [contains]

theorem get?_isSome_iff {t : Table w α} {k : Key w} : (t.get? k).isSome ↔ k.index < t.size := by
  simp [get?, size]

/-- Adding an entry leaves the earlier ones in place. -/
theorem get?_push_of_lt {t : Table w α} {k : Key w} (a : α) (h : k.index < t.size) :
    (t.push a).get? k = t.get? k :=
  Array.getElem?_push_lt h |>.trans (Array.getElem?_eq_getElem h).symm

/-- While keys last, the key of an added entry reads that entry. -/
theorem get?_push_nextKey {t : Table w α} (a : α) (h : t.size < Key.count w) :
    (t.push a).get? t.nextKey = some a := by
  have index : t.nextKey.index = t.entries.size := Key.index_ofIndex_of_lt h
  rw [get?, push, index]
  exact Array.getElem?_push_size

theorem size_modify? {t changed : Table w α} {k : Key w} {f : α → α}
    (h : t.modify? k f = some changed) : changed.size = t.size := by
  rw [modify?] at h
  split at h
  · cases h
    exact Array.size_modify
  · cases h

theorem get?_modify? {t changed : Table w α} {k m : Key w} {f : α → α}
    (h : t.modify? k f = some changed) :
    changed.get? m = if k = m then (t.get? m).map f else t.get? m := by
  rw [modify?] at h
  split at h
  · cases h
    rw [get?, get?, Array.getElem?_modify]
    by_cases same : k = m
    · rw [if_pos same, if_pos (congrArg Key.index same)]
    · rw [if_neg same, if_neg fun indices => same (Key.ext indices)]
  · cases h

end Table
end FlowGraph
