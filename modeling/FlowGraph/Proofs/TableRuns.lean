import FlowGraph.Proofs.Vertices

/-! Tables in use. A table that starts empty is added to and written to in any order.
As long as keys last, each addition returns a key of its own, and an entry is
changed through its own key only. Later additions return keys again and can not be
read, so the entries that can be read stay what they are. -/
namespace FlowGraph

/-- A use of a table: an entry is added, or the entry of a key is replaced. -/
inductive TableUse (w : Nat) (α : Type) where
  | add (a : α)
  | set (k : Key w) (a : α)

namespace TableUse

variable {w : Nat} {α : Type}

/-- The value that a use sets through a key. -/
def valueFor? (k : Key w) : TableUse w α → Option α
  | .add _ => none
  | .set m a => if m = k then some a else none

/-- The value that was last set through a key. -/
def lastSet? (k : Key w) (uses : List (TableUse w α)) : Option α :=
  (uses.filterMap (valueFor? k)).getLast?

theorem getD_lastSet?_cons (k : Key w) (use : TableUse w α) (uses : List (TableUse w α)) (a : α) :
    (lastSet? k (use :: uses)).getD a = (lastSet? k uses).getD ((use.valueFor? k).getD a) := by
  rw [lastSet?, List.filterMap_cons]
  cases use.valueFor? k with
  | none => rfl
  | some b => rw [List.getLast?_cons]; rfl

end TableUse

namespace Table
open TableUse (lastSet?)

variable {w : Nat} {α : Type}

/-- The table after a use. Nothing is set through a key that the table does not have. -/
def after (t : Table w α) : TableUse w α → Table w α
  | .add a => t.push a
  | .set k a => (t.set? k a).getD t

def afterAll (t : Table w α) (uses : List (TableUse w α)) : Table w α := uses.foldl after t

/-- The keys that additions return, in order. -/
def returned (t : Table w α) : List (TableUse w α) → List (Key w)
  | [] => []
  | .add a :: rest => t.nextKey :: (t.push a).returned rest
  | .set k a :: rest => (t.after (.set k a)).returned rest

/-- The table that comes of uses of the empty table. -/
def ofUses (uses : List (TableUse w α)) : Table w α := afterAll ∅ uses

/-! One use. -/

theorem isSome_set?_iff {t : Table w α} {k : Key w} {a : α} :
    (t.set? k a).isSome ↔ k.index < t.size := by
  rw [set?, modify?]
  split
  · next inside => simpa using contains_iff.mp inside
  · next outside => simpa using outside

theorem size_after_set (t : Table w α) (k : Key w) (a : α) : (t.after (.set k a)).size = t.size := by
  rw [after]
  cases found : t.set? k a with
  | none => rfl
  | some changed => exact size_modify? found

theorem keys_after_set (t : Table w α) (k : Key w) (a : α) : (t.after (.set k a)).keys = t.keys := by
  rw [keys, keys, size_after_set]

theorem keys_push (t : Table w α) (a : α) : (t.push a).keys = t.keys ++ [t.nextKey] := by
  simp [keys, nextKey, List.range_succ]

/-- A use keeps an entry that can be read, unless it sets it. -/
theorem get?_after {t : Table w α} {k : Key w} {v : α} (read : t.get? k = some v)
    (use : TableUse w α) : (t.after use).get? k = some ((use.valueFor? k).getD v) := by
  have inside : k.index < t.size := get?_isSome_iff.mp (Option.isSome_of_eq_some read)
  cases use with
  | add a => exact (get?_push_of_lt a inside).trans read
  | set m a =>
      rw [after, TableUse.valueFor?]
      cases found : t.set? m a with
      | some changed =>
          rw [Option.getD_some, get?_modify? found]
          split
          · rw [read]; rfl
          · exact read
      | none =>
          -- The other key is not in the table.
          have other : m ≠ k := by
            rintro rfl
            have present : (t.set? m a).isSome := isSome_set?_iff.mpr inside
            rw [found] at present
            cases present
          rw [if_neg other]
          exact read

/-- A table with no keys left gives out keys again, and keeps what they read. -/
theorem get?_push_of_full {t : Table w α} (full : Key.count w ≤ t.size) (a : α) (k : Key w) :
    (t.push a).get? k = t.get? k :=
  get?_push_of_lt a (Nat.lt_of_lt_of_le k.index_lt full)

/-! Runs. -/

theorem afterAll_append (t : Table w α) (first second : List (TableUse w α)) :
    t.afterAll (first ++ second) = (t.afterAll first).afterAll second :=
  List.foldl_append

theorem returned_append (t : Table w α) (first second : List (TableUse w α)) :
    t.returned (first ++ second) = t.returned first ++ (t.afterAll first).returned second := by
  induction first generalizing t with
  | nil => rfl
  | cons use first ih =>
      cases use with
      | add a => exact congrArg _ (ih (t.push a))
      | set k a => exact ih (t.after (.set k a))

theorem get?_afterAll {t : Table w α} {k : Key w} {v : α} (read : t.get? k = some v)
    (uses : List (TableUse w α)) :
    (t.afterAll uses).get? k = some ((lastSet? k uses).getD v) := by
  induction uses generalizing t v with
  | nil => exact read
  | cons use uses ih =>
      rw [TableUse.getD_lastSet?_cons]
      exact ih (get?_after read use)

theorem keys_append_returned (t : Table w α) (uses : List (TableUse w α)) :
    t.keys ++ t.returned uses = (t.afterAll uses).keys := by
  induction uses generalizing t with
  | nil => exact List.append_nil _
  | cons use uses ih =>
      cases use with
      | add a =>
          have rest := ih (t.push a)
          rw [keys_push, List.append_assoc] at rest
          exact rest
      | set k a =>
          have rest := ih (t.after (.set k a))
          rw [keys_after_set] at rest
          exact rest

/-- A table grows by one entry at a time. -/
theorem exists_add_at {t : Table w α} {uses : List (TableUse w α)} {n : Nat} (le : t.size ≤ n)
    (lt : n < (t.afterAll uses).size) :
    ∃ earlier b between, uses = earlier ++ .add b :: between ∧ (t.afterAll earlier).size = n := by
  induction uses generalizing t with
  | nil => exact absurd lt (Nat.not_lt.mpr le)
  | cons use uses ih =>
      cases use with
      | add a =>
          by_cases here : t.size = n
          · exact ⟨[], a, uses, rfl, here⟩
          · have next : (t.push a).size ≤ n := by
              rw [size_push]
              omega
            obtain ⟨earlier, b, between, shape, size⟩ := ih next lt
            exact ⟨.add a :: earlier, b, between, congrArg _ shape, size⟩
      | set k a =>
          have next : (t.after (.set k a)).size ≤ n := by
            rw [size_after_set]
            exact le
          obtain ⟨earlier, b, between, shape, size⟩ := ih next lt
          exact ⟨.set k a :: earlier, b, between, congrArg _ shape, size⟩

/-- What an addition to a table comes to among its uses, if it returns the key `k`. -/
structure Addition (uses before : List (TableUse w α)) (a : α) (after : List (TableUse w α))
    (k : Key w) : Prop where
  returns : ∃ later, (∅ : Table w α).returned uses = (∅ : Table w α).returned before ++ k :: later
  index : k.index = (ofUses before).size % Key.count w
  /-- While keys last, the key reads what was last set through it, or else what was added. -/
  reads : (ofUses before).size < Key.count w →
    (ofUses uses).get? k = some ((lastSet? k after).getD a)
  /-- Without keys left, it is the key of an earlier addition. -/
  aliases : Key.count w ≤ (ofUses before).size →
    ∃ earlier b between, before = earlier ++ .add b :: between ∧
      (ofUses earlier).size = (ofUses before).size % Key.count w ∧ (ofUses earlier).nextKey = k
  /-- Without keys left, every key reads what it read before. -/
  keeps : Key.count w ≤ (ofUses before).size →
    ∀ m, (ofUses (before ++ [.add a])).get? m = (ofUses before).get? m

theorem addition_nextKey (before : List (TableUse w α)) (a : α) (after : List (TableUse w α)) :
    Addition (before ++ .add a :: after) before a after (ofUses before).nextKey where
  returns := ⟨_, returned_append ∅ before (.add a :: after)⟩
  index := rfl
  reads := by
    intro small
    have read := get?_push_nextKey a small
    rw [ofUses, afterAll_append]
    exact get?_afterAll read after
  aliases := by
    intro full
    have lower : (ofUses before).size % Key.count w < (ofUses before).size :=
      Nat.lt_of_lt_of_le (Nat.mod_lt _ (Nat.two_pow_pos w)) full
    obtain ⟨earlier, b, between, shape, size⟩ := exists_add_at (Nat.zero_le _) lower
    refine ⟨earlier, b, between, shape, size, ?_⟩
    apply Key.ext
    rw [nextKey, Key.index_ofIndex, ofUses, size, Nat.mod_mod]
    rfl
  keeps := by
    intro full m
    rw [ofUses, afterAll_append]
    exact get?_push_of_full full a m

/-- Additions to a table return its keys in order, and these ascend as long as keys
last. An entry changes only through its own key, and when keys are given out again
nothing that can be read is lost. -/
theorem additions_of_uses (uses : List (TableUse w α)) :
    (∅ : Table w α).returned uses = (ofUses uses).keys ∧
    ((ofUses uses).size ≤ Key.count w →
      ((∅ : Table w α).returned uses).Pairwise (·.index < ·.index)) ∧
    (∀ before a after, uses = before ++ .add a :: after →
      Addition uses before a after (ofUses before).nextKey) ∧
    ∀ k : Key w, ((ofUses uses).contains k ↔ k.index < (ofUses uses).size) ∧
      (((ofUses uses).get? k).isSome ↔ k.index < (ofUses uses).size) ∧
      ∀ a, ((ofUses uses).set? k a).isSome ↔ k.index < (ofUses uses).size := by
  have listed : (∅ : Table w α).returned uses = (ofUses uses).keys := keys_append_returned ∅ uses
  refine ⟨listed, ?_, ?_, ?_⟩
  · intro small
    rw [listed]
    exact ascending_keys small
  · rintro before a after rfl
    exact addition_nextKey before a after
  · intro k
    exact ⟨contains_iff, get?_isSome_iff, fun _ => isSome_set?_iff⟩

/-- Three entries and two keys. -/
def sampleUses : List (TableUse 1 String) :=
  [.add "a", .set (.ofIndex 1 0) "b", .add "c", .add "d", .set (.ofIndex 1 2) "e"]

/-- The third addition returns the key of the first, and what is set through it is read
through the first. -/
theorem additions_of_sampleUses :
    (∅ : Table 1 String).returned sampleUses = [.ofIndex 1 0, .ofIndex 1 1, .ofIndex 1 0] ∧
      (ofUses sampleUses).get? (.ofIndex 1 0) = some "e" ∧
      Addition sampleUses (sampleUses.take 3) "d" (sampleUses.drop 4) (.ofIndex 1 2) := by
  obtain ⟨keys, -, added, -⟩ := additions_of_uses sampleUses
  refine ⟨keys.trans (by decide), ?_, added _ _ _ rfl⟩
  exact (added [] "a" _ rfl).reads (by decide)

end Table
end FlowGraph
