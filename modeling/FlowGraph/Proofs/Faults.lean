import FlowGraph.Proofs.Totality

/-! When construction fails, and with which fault. A label that is carried again
comes before all else, and the first position to carry one is blamed; then comes the
first branch to a label that nothing carries. Where neither is found, every look-up
of a target and of a node on the way succeeds, and there is a graph. -/
namespace FlowGraph.Construction

/-- The label that the instruction at a position carries. -/
def labelAt? (is : List Instruction) (p : Nat) : Option Label := is[p]?.bind (·.label)

/-- The label that the instruction at a position branches to. -/
def targetAt? (is : List Instruction) (p : Nat) : Option Label := is[p]?.bind (·.target?)

/-- A position carries a label that an earlier one carries. -/
def RepeatsAt (is : List Instruction) (q : Nat) (l : Label) : Prop :=
  labelAt? is q = some l ∧ ∃ p, p < q ∧ labelAt? is p = some l

/-- A position branches to a label that no position carries. -/
def StraysAt (is : List Instruction) (p : Nat) (l : Label) : Prop :=
  targetAt? is p = some l ∧ ∀ q, labelAt? is q ≠ some l

/-- The label of the first position that has one by `P`. -/
def First (P : Nat → Label → Prop) (l : Label) : Prop :=
  ∃ p, P p l ∧ ∀ q, q < p → ∀ m, ¬ P q m

variable {is : List Instruction} {P : Nat → Label → Prop} {l : Label}

theorem First.exists_of {p : Nat} (found : P p l) : ∃ m, First P m := by
  induction p using Nat.strong_induction_on generalizing l with
  | _ p ih =>
      by_cases earlier : ∃ q, q < p ∧ ∃ m, P q m
      · obtain ⟨q, less, m, early⟩ := earlier
        exact ih q less early
      · refine ⟨l, p, found, fun q less m early => earlier ⟨q, less, m, early⟩⟩

theorem first_of_here {k : Label} (here : P 0 k) (only : ∀ m, P 0 m → m = k) :
    First P l ↔ k = l := by
  constructor
  · rintro ⟨p, found, none⟩
    cases p with
    | zero => exact (only l found).symm
    | succ p => exact absurd here (none 0 (Nat.succ_pos p) k)
  · rintro rfl
    exact ⟨0, here, fun q less => absurd less (Nat.not_lt_zero q)⟩

theorem first_of_later (none : ∀ m, ¬ P 0 m) : First P l ↔ First (fun p => P (p + 1)) l := by
  constructor
  · rintro ⟨p, found, earlier⟩
    cases p with
    | zero => exact absurd found (none l)
    | succ p => exact ⟨p, found, fun q less => earlier (q + 1) (Nat.succ_lt_succ less)⟩
  · rintro ⟨p, found, earlier⟩
    refine ⟨p + 1, found, fun q less => ?_⟩
    cases q with
    | zero => exact none
    | succ q => exact earlier q (Nat.lt_of_succ_lt_succ less)

/-- A search that gives the first label by `P` comes to nothing if there is none. -/
theorem eq_none_iff_of_first {found : Option Label} (exact : ∀ l, found = some l ↔ First P l) :
    found = none ↔ ∀ p l, ¬ P p l := by
  constructor
  · intro nothing p l holds
    obtain ⟨m, first⟩ := First.exists_of holds
    rw [(exact m).mpr first] at nothing
    cases nothing
  · intro none
    rw [Option.eq_none_iff_forall_ne_some]
    intro l some
    obtain ⟨p, holds, -⟩ := (exact l).mp some
    exact none p l holds

theorem mem_labels_iff : l ∈ labels is ↔ ∃ p, labelAt? is p = some l := by
  simp only [mem_labels, labelAt?, Option.bind_eq_some_iff]

/-- A position carries a label that is among `seen` or that an earlier one carries. -/
def RepeatsAmong (seen : List Label) (is : List Instruction) (q : Nat) (l : Label) : Prop :=
  labelAt? is q = some l ∧ (l ∈ seen ∨ ∃ p, p < q ∧ labelAt? is p = some l)

theorem repeatsAmong_zero {seen : List Label} {i : Instruction} :
    RepeatsAmong seen (i :: is) 0 l ↔ i.label = some l ∧ l ∈ seen := by
  simp [RepeatsAmong, labelAt?]

theorem repeatsAmong_succ (seen : List Label) (i : Instruction) (is : List Instruction) :
    (fun q => RepeatsAmong seen (i :: is) (q + 1)) = RepeatsAmong (i.label.toList ++ seen) is := by
  funext q l
  have shift : ∀ p, labelAt? (i :: is) (p + 1) = labelAt? is p := fun p => rfl
  have start : labelAt? (i :: is) 0 = i.label := rfl
  simp only [RepeatsAmong, Nat.exists_lt_succ_left, shift, start, List.mem_append,
    Option.mem_toList, eq_iff_iff]
  tauto

theorem firstRepeat?_eq_some_iff {seen : List Label} :
    firstRepeat? seen (labels is) = some l ↔ First (RepeatsAmong seen is) l := by
  induction is generalizing seen with
  | nil =>
      constructor
      · intro found
        cases found
      · rintro ⟨p, ⟨carried, -⟩, -⟩
        cases carried
  | cons i rest ih =>
      cases carried : i.label with
      | none =>
          have same : labels (i :: rest) = labels rest := List.filterMap_cons_none carried
          rw [same, first_of_later, repeatsAmong_succ, carried]
          · exact ih
          · intro m
            simp [repeatsAmong_zero, carried]
      | some k =>
          have split : labels (i :: rest) = k :: labels rest := List.filterMap_cons_some carried
          rw [split, firstRepeat?]
          by_cases again : k ∈ seen
          · rw [if_pos (List.contains_iff_mem.mpr again), first_of_here, Option.some_inj]
            · exact repeatsAmong_zero.mpr ⟨carried, again⟩
            · intro m here
              exact Option.some_inj.mp ((repeatsAmong_zero.mp here).1.symm.trans carried)
          · rw [if_neg (mt List.contains_iff_mem.mp again), first_of_later, repeatsAmong_succ,
              carried]
            · exact ih
            · intro m here
              obtain ⟨same, old⟩ := repeatsAmong_zero.mp here
              cases carried.symm.trans same
              exact again old

/-- The first position at which `f` gives a label that passes a test. -/
theorem find?_filterMap_eq_some_iff {f : Instruction → Option Label} {test : Label → Bool} :
    (is.filterMap f).find? test = some l ↔
      First (fun p m => is[p]?.bind f = some m ∧ test m = true) l := by
  induction is with
  | nil =>
      constructor
      · intro found
        cases found
      · rintro ⟨p, ⟨given, -⟩, -⟩
        cases given
  | cons i rest ih =>
      cases given : f i with
      | none =>
          rw [List.filterMap_cons_none given, first_of_later]
          · exact ih
          · rintro m ⟨here, -⟩
            cases given.symm.trans here
      | some k =>
          rw [List.filterMap_cons_some given]
          cases passes : test k with
          | true =>
              rw [List.find?_cons_of_pos passes, first_of_here ⟨given, passes⟩, Option.some_inj]
              rintro m ⟨here, -⟩
              exact Option.some_inj.mp (here.symm.trans given)
          | false =>
              rw [List.find?_cons_of_neg (Bool.eq_false_iff.mp passes), first_of_later]
              · exact ih
              · rintro m ⟨here, passes'⟩
                cases given.symm.trans here
                rw [passes] at passes'
                cases passes'

theorem firstUndefined?_eq_some_iff :
    firstUndefined? is = some l ↔ First (StraysAt is) l := by
  have strays : StraysAt is = fun p m =>
      is[p]?.bind (·.target?) = some m ∧ (!(labels is).contains m) = true := by
    funext p m
    simp [StraysAt, targetAt?, mem_labels_iff]
  rw [strays, ← find?_filterMap_eq_some_iff]
  rfl

theorem repeatsAmong_nil (is : List Instruction) : RepeatsAmong [] is = RepeatsAt is := by
  funext q l
  simp [RepeatsAmong, RepeatsAt]

theorem fault?_eq_duplicateLabel_iff :
    fault? is = some (.duplicateLabel l) ↔ First (RepeatsAt is) l := by
  rw [← repeatsAmong_nil, ← firstRepeat?_eq_some_iff, fault?]
  cases firstRepeat? [] (labels is) with
  | some m => simp
  | none => simp

theorem firstRepeat?_eq_none_iff_repeatsAt :
    firstRepeat? [] (labels is) = none ↔ ∀ q l, ¬ RepeatsAt is q l := by
  rw [← repeatsAmong_nil]
  exact eq_none_iff_of_first fun l => firstRepeat?_eq_some_iff

theorem fault?_eq_undefinedTarget_iff :
    fault? is = some (.undefinedTarget l) ↔
      (∀ q m, ¬ RepeatsAt is q m) ∧ First (StraysAt is) l := by
  rw [← firstRepeat?_eq_none_iff_repeatsAt, ← firstUndefined?_eq_some_iff, fault?]
  cases firstRepeat? [] (labels is) with
  | some m => simp
  | none => simp

theorem wellLabelled_iff_positions :
    WellLabelled is ↔ (∀ q l, ¬ RepeatsAt is q l) ∧ ∀ p l, ¬ StraysAt is p l := by
  rw [← fault?_eq_none_iff, ← firstRepeat?_eq_none_iff_repeatsAt,
    ← eq_none_iff_of_first fun l => firstUndefined?_eq_some_iff, fault?]
  cases firstRepeat? [] (labels is) with
  | some m => simp
  | none => simp

/-- A short list has a graph or the fault of its labels. -/
theorem build_eq_error_iff (short : is.length ≤ Key.count 32 - 2) {fault : Fault} :
    build is = .error fault ↔ fault? is = some fault := by
  cases faulty : fault? is with
  | none =>
      obtain ⟨g, built⟩ := Admissible.exists_build ⟨fault?_eq_none_iff.mp faulty, short⟩
      simp [built]
  | some other =>
      rw [build, faulty]
      simp

theorem exists_build_iff (short : is.length ≤ Key.count 32 - 2) :
    (∃ g, build is = .ok g) ↔ WellLabelled is := by
  constructor
  · rintro ⟨g, built⟩
    exact (build_eq_ok built).1
  · intro sound
    exact Admissible.exists_build ⟨sound, short⟩

theorem replay?_split {g last : Graph} {before after : List Edit} {e : Edit}
    (h : replay? g (before ++ e :: after) = some last) :
    ∃ here next, replay? g before = some here ∧ e.perform? here = some next := by
  rw [replay?, List.foldlM_append] at h
  obtain ⟨here, reached, rest⟩ := Option.bind_eq_some_iff.mp h
  obtain ⟨next, done, -⟩ := replay?_cons rest
  exact ⟨here, next, reached, done⟩

theorem Built.exists_targetNode {g : Graph} (h : Built is g) {i : Instruction} (member : i ∈ is)
    (target : i.target? = some l) :
    ∃ n, targetNode? (targets is) l = some n ∧ g.contains n = true := by
  have referred : l ∈ references is := List.mem_filterMap.mpr ⟨i, member, target⟩
  obtain ⟨n, found⟩ := Option.isSome_iff_exists.mp
    (targetNode?_isSome_iff.mpr (h.mem_targets.mpr referred))
  refine ⟨n, found, Table.contains_iff.mpr ?_⟩
  rw [← Graph.size, h.size_eq]
  exact h.index_target_lt found is.length

/-- A short list has no graph exactly if a label is carried again, and then the
first such label is blamed, or else if a branch strays, and then the target of the
first such branch is blamed. On the way to a graph no look-up of a target or of a
node fails. -/
theorem construction_fails_exactly (short : is.length ≤ Key.count 32 - 2) :
    (∀ l, build is = .error (.duplicateLabel l) ↔ First (RepeatsAt is) l) ∧
    (∀ l, build is = .error (.undefinedTarget l) ↔
      (∀ q m, ¬ RepeatsAt is q m) ∧ First (StraysAt is) l) ∧
    ((∃ g, build is = .ok g) ↔ (∀ q l, ¬ RepeatsAt is q l) ∧ ∀ p l, ¬ StraysAt is p l) ∧
    (∀ cause, build is ≠ .error (.missingKey cause)) ∧
    ∀ g, build is = .ok g →
      (∀ i ∈ is, ∀ l, i.target? = some l →
        ∃ n, targetNode? (targets is) l = some n ∧ g.contains n = true) ∧
      ∀ before e after, edits is = before ++ e :: after →
        ∃ here next, replay? .initial before = some here ∧ e.perform? here = some next := by
  refine ⟨fun l => ?_, fun l => ?_, ?_, build_ne_missingKey short, fun g built => ⟨?_, ?_⟩⟩
  · rw [build_eq_error_iff short, fault?_eq_duplicateLabel_iff]
  · rw [build_eq_error_iff short, fault?_eq_undefinedTarget_iff]
  · rw [exists_build_iff short, wellLabelled_iff_positions]
  · intro i member l target
    exact (Built.of_build short built).exists_targetNode member target
  · intro before e after split
    have replayed := (build_eq_ok built).2
    rw [split] at replayed
    exact replay?_split replayed

/-- A stray branch, and behind it a label that is carried twice. -/
def sampleFaulty : List Instruction :=
  [⟨none, .goto ⟨"nowhere"⟩⟩, ⟨some ⟨"twice"⟩, .plain "work"⟩, ⟨some ⟨"twice"⟩, .ret none⟩]

theorem faults_of_sampleFaulty :
    sampleFaulty.length ≤ Key.count 32 - 2 ∧
    build sampleFaulty = .error (.duplicateLabel ⟨"twice"⟩) ∧
    build (sampleFaulty.take 2) = .error (.undefinedTarget ⟨"nowhere"⟩) ∧
    ∃ g, build (sampleFaulty.drop 2) = .ok g := by
  have early : ∀ q, q < 2 → ∀ m, ¬ RepeatsAt sampleFaulty q m := by
    rintro (_ | _ | q) less m ⟨here, p, before, there⟩
    · cases here
    · obtain rfl : p = 0 := by omega
      cases there
    · omega
  have apart : ∀ q m, ¬ RepeatsAt (sampleFaulty.take 2) q m := by
    rintro (_ | _ | q) m ⟨here, p, before, there⟩
    · cases here
    · obtain rfl : p = 0 := by omega
      cases there
    · cases here
  have stray : ∀ q, labelAt? (sampleFaulty.take 2) q ≠ some ⟨"nowhere"⟩ := by
    rintro (_ | _ | q)
    · decide
    · decide
    · intro same
      cases same
  refine ⟨by decide, ?_, ?_, ?_⟩
  · apply ((construction_fails_exactly (by decide)).1 _).mpr
    exact ⟨2, ⟨rfl, 1, by decide, rfl⟩, early⟩
  · apply ((construction_fails_exactly (by decide)).2.1 _).mpr
    exact ⟨apart, 0, ⟨rfl, stray⟩, fun q less => absurd less (Nat.not_lt_zero q)⟩
  · apply (construction_fails_exactly (by decide)).2.2.1.mpr
    constructor
    · rintro (_ | q) m ⟨here, p, before, there⟩
      · omega
      · cases here
    · rintro (_ | p) m ⟨here, -⟩
      · cases here
      · cases here

end FlowGraph.Construction
