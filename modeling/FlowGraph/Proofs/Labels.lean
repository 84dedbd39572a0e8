import FlowGraph.Graph.Construction
import FlowGraph.Machine
import Mathlib.Data.List.TakeWhile

/-! Instruction lists whose labels make sense: no label is carried twice and
every branch leads to a label that is carried. These are the lists that have a
graph. In them a label determines its position, and the targets are just the
labels that branches refer to. -/
namespace FlowGraph.Construction
open Machine

structure WellLabelled (is : List Instruction) : Prop where
  distinct : (labels is).Nodup
  defined : ∀ l ∈ references is, l ∈ labels is

theorem firstRepeat?_eq_none_iff {seen ls : List Label} :
    firstRepeat? seen ls = none ↔ ls.Nodup ∧ ∀ l ∈ ls, l ∉ seen := by
  induction ls generalizing seen with
  | nil => simp [firstRepeat?]
  | cons l rest ih =>
      rw [firstRepeat?]
      by_cases old : l ∈ seen
      · simp [old]
      · rw [if_neg (by simpa using old), ih, List.nodup_cons]
        constructor
        · rintro ⟨nodup, apart⟩
          refine ⟨⟨fun member => apart l member List.mem_cons_self, nodup⟩, ?_⟩
          intro m hm
          rcases List.mem_cons.mp hm with rfl | hm
          · exact old
          · exact fun earlier => apart m hm (List.mem_cons_of_mem l earlier)
        · rintro ⟨⟨fresh, nodup⟩, apart⟩
          refine ⟨nodup, fun m hm earlier => ?_⟩
          rcases List.mem_cons.mp earlier with rfl | earlier
          · exact fresh hm
          · exact apart m (List.mem_cons_of_mem l hm) earlier

theorem firstUndefined?_eq_none_iff {is : List Instruction} :
    firstUndefined? is = none ↔ ∀ l ∈ references is, l ∈ labels is := by
  simp [firstUndefined?]

theorem fault?_eq_none_iff {is : List Instruction} : fault? is = none ↔ WellLabelled is := by
  rw [fault?]
  cases repeated : firstRepeat? [] (labels is) with
  | some l =>
      have notDistinct : ¬ (labels is).Nodup := by
        intro nodup
        have none := firstRepeat?_eq_none_iff.mpr ⟨nodup, fun m _ => List.not_mem_nil (a := m)⟩
        rw [none] at repeated
        cases repeated
      constructor
      · intro h
        cases h
      · intro h
        exact absurd h.distinct notDistinct
  | none =>
      have distinct : (labels is).Nodup := (firstRepeat?_eq_none_iff.mp repeated).1
      rw [Option.map_eq_none_iff, firstUndefined?_eq_none_iff]
      exact ⟨fun defined => ⟨distinct, defined⟩, fun h => h.defined⟩

/-- A graph is built only of a well labelled list, and by replaying its edits. -/
theorem build_eq_ok {is : List Instruction} {g : Graph} (h : build is = .ok g) :
    WellLabelled is ∧ replay? .initial (edits is) = some g := by
  rw [build] at h
  split at h
  · cases h
  · next faultless =>
      split at h
      · next g' replayed =>
          cases h
          exact ⟨fault?_eq_none_iff.mp faultless, replayed⟩
      · cases h

theorem mem_labels {is : List Instruction} {l : Label} :
    l ∈ labels is ↔ ∃ (p : Nat) (i : Instruction), is[p]? = some i ∧ i.label = some l := by
  rw [labels, List.mem_filterMap]
  constructor
  · rintro ⟨i, member, carried⟩
    obtain ⟨p, hp⟩ := List.mem_iff_getElem?.mp member
    exact ⟨p, i, hp, carried⟩
  · rintro ⟨p, i, hp, carried⟩
    exact ⟨i, List.mem_of_getElem? hp, carried⟩

theorem mem_references {is : List Instruction} {l : Label} :
    l ∈ references is ↔ ∃ (p : Nat) (i : Instruction), is[p]? = some i ∧ i.target? = some l := by
  rw [references, List.mem_filterMap]
  constructor
  · rintro ⟨i, member, target⟩
    obtain ⟨p, hp⟩ := List.mem_iff_getElem?.mp member
    exact ⟨p, i, hp, target⟩
  · rintro ⟨p, i, hp, target⟩
    exact ⟨i, List.mem_of_getElem? hp, target⟩

theorem WellLabelled.exists_target {is : List Instruction} (h : WellLabelled is) {p : Nat}
    {i : Instruction} {l : Label} (hp : is[p]? = some i) (target : i.target? = some l) :
    ∃ (q : Nat) (j : Instruction), is[q]? = some j ∧ j.label = some l :=
  mem_labels.mp (h.defined l (mem_references.mpr ⟨p, i, hp, target⟩))

theorem nodup_eraseDups : ∀ ls : List Label, ls.eraseDups.Nodup
  | [] => List.nodup_nil
  | l :: rest => by
      rw [List.eraseDups_cons, List.nodup_cons, List.mem_eraseDups]
      exact ⟨by simp, nodup_eraseDups _⟩
termination_by ls => ls.length
decreasing_by exact Nat.lt_succ_of_le (List.length_filter_le _ rest)

namespace WellLabelled

variable {is : List Instruction}

theorem position_unique (h : WellLabelled is) {p q : Nat} {i j : Instruction} {l : Label}
    (hp : is[p]? = some i) (hi : i.label = some l) (hq : is[q]? = some j)
    (hj : j.label = some l) : p = q := by
  have apart := List.pairwise_iff_getElem.mp (List.pairwise_filterMap.mp h.distinct)
  obtain ⟨hp', rfl⟩ := List.getElem?_eq_some_iff.mp hp
  obtain ⟨hq', rfl⟩ := List.getElem?_eq_some_iff.mp hq
  rcases Nat.lt_trichotomy p q with less | same | more
  · exact absurd rfl (apart p q hp' hq' less l hi l hj)
  · exact same
  · exact absurd rfl (apart q p hq' hp' more l hj l hi)

theorem positionOf?_eq_some_iff (h : WellLabelled is) {l : Label} {p : Nat} :
    positionOf? is l = some p ↔ ∃ i, is[p]? = some i ∧ i.label = some l := by
  constructor
  · intro found
    obtain ⟨inside, carried, _⟩ := List.findIdx?_eq_some_iff_getElem.mp found
    exact ⟨is[p], List.getElem?_eq_getElem inside, by simpa using carried⟩
  · rintro ⟨i, hp, carried⟩
    cases found : positionOf? is l with
    | none =>
        have absent := List.findIdx?_eq_none_iff.mp found i (List.mem_of_getElem? hp)
        simp [carried] at absent
    | some q =>
        obtain ⟨inside, carried', _⟩ := List.findIdx?_eq_some_iff_getElem.mp found
        have hq := List.getElem?_eq_getElem inside
        rw [h.position_unique hp carried hq (by simpa using carried')]

theorem targets_eq (h : WellLabelled is) : targets is = (references is).eraseDups := by
  have all : (references is).takeWhile (labels is).contains = references is :=
    List.takeWhile_eq_self_iff.mpr fun l member => by simpa using h.defined l member
  rw [targets, all]

theorem mem_targets (h : WellLabelled is) {l : Label} : l ∈ targets is ↔ l ∈ references is := by
  rw [h.targets_eq, List.mem_eraseDups]

theorem nodup_targets (h : WellLabelled is) : (targets is).Nodup := by
  rw [h.targets_eq]
  exact nodup_eraseDups _

end WellLabelled
end FlowGraph.Construction
