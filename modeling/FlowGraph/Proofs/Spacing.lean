import FlowGraph.Proofs.Escaping

/-! Gaps and words. A text is a row of words with gaps of blanks between them, and
two texts may differ in their gaps alone. Then what was found in one of them by its
words is found in the other. -/
namespace FlowGraph.Text

/-- Blanks, at least one. -/
structure Gap (cs : List Char) : Prop where
  filled : cs ≠ []
  blank : ∀ c ∈ cs, isBlank c = true

/-- Characters that are not blank, at least one. -/
structure Word (cs : List Char) : Prop where
  filled : cs ≠ []
  solid : ∀ c ∈ cs, isBlank c = false

/-- The text does not start with a blank. -/
def Starts (cs : List Char) : Prop := ∀ c ∈ cs.head?, isBlank c = false

/-- The text does not end with a blank. -/
def Ends (cs : List Char) : Prop := ∀ c ∈ cs.getLast?, isBlank c = false

theorem starts_cons {c : Char} {rest : List Char} : Starts (c :: rest) ↔ isBlank c = false := by
  simp [Starts]

theorem gap_singleton {c : Char} (blank : isBlank c = true) : Gap [c] :=
  ⟨List.cons_ne_nil c [], List.forall_mem_singleton.mpr blank⟩

theorem Gap.first {cs : List Char} (gap : Gap cs) :
    ∃ c rest, cs = c :: rest ∧ isBlank c = true := by
  obtain ⟨c, rest, rfl⟩ := List.exists_cons_of_ne_nil gap.filled
  exact ⟨c, rest, rfl, gap.blank c List.mem_cons_self⟩

theorem Gap.last {cs : List Char} (gap : Gap cs) :
    ∃ front c, cs = front ++ [c] ∧ isBlank c = true := by
  obtain ⟨front, c, rfl⟩ := (List.eq_nil_or_concat cs).resolve_left gap.filled
  exact ⟨front, c, List.concat_eq_append, gap.blank c (by simp)⟩

theorem Gap.atWordEnd {cs : List Char} (gap : Gap cs) (rest : List Char) :
    atWordEnd (cs ++ rest) = true := by
  obtain ⟨c, more, rfl, blank⟩ := gap.first
  exact blank

theorem Gap.not_starts {cs : List Char} (gap : Gap cs) (rest : List Char) :
    ¬ Starts (cs ++ rest) := by
  obtain ⟨c, more, rfl, blank⟩ := gap.first
  rw [List.cons_append, starts_cons, blank]
  decide

theorem starts_append {cs : List Char} (filled : cs ≠ []) (rest : List Char) :
    Starts (cs ++ rest) ↔ Starts cs := by
  rw [Starts, Starts, List.head?_append, Option.or_of_isSome (List.isSome_head?.mpr filled)]

theorem ends_append {cs : List Char} (filled : cs ≠ []) (front : List Char) :
    Ends (front ++ cs) ↔ Ends cs := by
  rw [Ends, Ends, List.getLast?_append, Option.or_of_isSome (List.getLast?_isSome.mpr filled)]

theorem tight_iff {cs : List Char} : Tight cs ↔ cs ≠ [] ∧ Starts cs ∧ Ends cs := by
  constructor
  · intro tight
    refine ⟨tight.ne_nil, ?_, ?_⟩
    · obtain ⟨c, rest, rfl, solid⟩ := tight.first
      exact starts_cons.mpr solid
    · obtain ⟨front, c, rfl, solid⟩ := tight.last
      simpa [Ends] using solid
  · rintro ⟨filled, starts, ends⟩
    constructor
    · obtain ⟨c, rest, rfl⟩ := List.exists_cons_of_ne_nil filled
      exact ⟨c, rest, rfl, starts_cons.mp starts⟩
    · obtain ⟨front, c, rfl⟩ := (List.eq_nil_or_concat cs).resolve_left filled
      rw [List.concat_eq_append] at ends
      exact ⟨front, c, List.concat_eq_append, ends c (by simp)⟩

theorem Tight.starts {cs : List Char} (tight : Tight cs) : Starts cs := (tight_iff.mp tight).2.1

theorem Tight.ends {cs : List Char} (tight : Tight cs) : Ends cs := (tight_iff.mp tight).2.2

theorem Tight.starts_append {cs : List Char} (tight : Tight cs) (rest : List Char) :
    Starts (cs ++ rest) :=
  (Text.starts_append tight.ne_nil rest).mpr tight.starts

theorem Word.starts {cs : List Char} (word : Word cs) : Starts cs := by
  intro c first
  exact word.solid c (List.mem_of_mem_head? first)

theorem trimStart_append {blanks cs : List Char}
    (blank : ∀ c ∈ blanks, isBlank c = true) (starts : Starts cs) :
    trimStart (blanks ++ cs) = cs := by
  rw [trimStart, List.dropWhile_append_of_pos blank]
  cases cs with
  | nil => rfl
  | cons c rest => exact List.dropWhile_cons_of_neg (by simp [starts c rfl])

/-- Where the blanks at the start of a text end is not a matter of choice. -/
theorem eq_of_blanks_append {v w s t : List Char} (before : ∀ c ∈ v, isBlank c = true)
    (blank : ∀ c ∈ w, isBlank c = true) (first : Starts s) (second : Starts t)
    (same : v ++ s = w ++ t) : v = w ∧ s = t := by
  have rest : s = t := by
    have trimmed := congrArg trimStart same
    rwa [trimStart_append before first, trimStart_append blank second]
      at trimmed
  subst rest
  exact ⟨List.append_cancel_right same, rfl⟩

/-! Texts with the same words and gaps at the same places. -/

/-- The second text is the first one with each of its gaps made wider or narrower,
or filled with other blanks. -/
inductive Respaced : List Char → List Char → Prop where
  | nil : Respaced [] []
  | char {c : Char} {s t : List Char} : isBlank c = false → Respaced s t →
      Respaced (c :: s) (c :: t)
  | gap {v w s t : List Char} : Gap v → Gap w → Starts s → Respaced s t →
      Respaced (v ++ s) (w ++ t)

namespace Respaced

variable {s t : List Char}

theorem starts (respaced : Respaced s t) (first : Starts s) : Starts t := by
  cases respaced with
  | nil => exact first
  | char solid _ => exact starts_cons.mpr solid
  | gap blank _ _ _ => exact absurd first (blank.not_starts _)

theorem symm (respaced : Respaced s t) : Respaced t s := by
  induction respaced with
  | nil => exact .nil
  | char solid _ ih => exact .char solid ih
  | gap first second starts rest ih => exact .gap second first (rest.starts starts) ih

theorem eq_nil_iff (respaced : Respaced s t) : s = [] ↔ t = [] := by
  cases respaced with
  | nil => rfl
  | char => simp
  | gap first second => simp [first.filled, second.filled]

theorem atWordEnd_eq (respaced : Respaced s t) : atWordEnd s = atWordEnd t := by
  cases respaced with
  | nil => rfl
  | char => rfl
  | gap first second => rw [first.atWordEnd, second.atWordEnd]

theorem trimStart (respaced : Respaced s t) : Respaced (Text.trimStart s) (Text.trimStart t) := by
  cases respaced with
  | nil => exact .nil
  | @char c s t solid rest =>
      have kept : ∀ more, Text.trimStart (c :: more) = c :: more :=
        fun more => List.dropWhile_cons_of_neg (by simp [solid])
      rw [kept, kept]
      exact .char solid rest
  | gap first second starts rest =>
      rwa [trimStart_append first.blank starts,
        trimStart_append second.blank (rest.starts starts)]

theorem any_isBlank (respaced : Respaced s t) : s.any isBlank = t.any isBlank := by
  induction respaced with
  | nil => rfl
  | char _ _ ih => rw [List.any_cons, List.any_cons, ih]
  | gap first second _ _ _ =>
      obtain ⟨c, _, rfl, one⟩ := first.first
      obtain ⟨d, _, rfl, two⟩ := second.first
      simp [one, two]

theorem ends (respaced : Respaced s t) (last : Ends s) : Ends t := by
  induction respaced with
  | nil => exact last
  | @char c s t solid rest ih =>
      by_cases empty : s = []
      · rw [rest.eq_nil_iff.mp empty]
        simpa [Ends] using solid
      · have filled := mt rest.eq_nil_iff.mpr empty
        exact (ends_append filled [c]).mpr (ih ((ends_append empty [c]).mp last))
  | @gap v w s t first second starts rest ih =>
      by_cases empty : s = []
      · obtain ⟨front, c, rfl, blank⟩ := first.last
        simp [empty, Ends, blank] at last
      · have filled := mt rest.eq_nil_iff.mpr empty
        exact (ends_append filled w).mpr (ih ((ends_append empty v).mp last))

theorem tight (respaced : Respaced s t) (tight : Tight s) : Tight t := by
  obtain ⟨filled, first, last⟩ := tight_iff.mp tight
  exact tight_iff.mpr ⟨mt respaced.eq_nil_iff.mpr filled, respaced.starts first, respaced.ends last⟩

/-! What the second text is, read off the first. -/

theorem of_cons {c : Char} (solid : isBlank c = false) (respaced : Respaced (c :: s) t) :
    ∃ rest, t = c :: rest ∧ Respaced s rest := by
  generalize shape : c :: s = text at respaced
  cases respaced with
  | nil => cases shape
  | char _ rest =>
      cases shape
      exact ⟨_, rfl, rest⟩
  | gap blank _ _ _ =>
      have first : Starts (c :: s) := starts_cons.mpr solid
      rw [shape] at first
      exact absurd first (blank.not_starts _)

theorem of_word {word : List Char} (solid : ∀ c ∈ word, isBlank c = false)
    (respaced : Respaced (word ++ s) t) : ∃ rest, t = word ++ rest ∧ Respaced s rest := by
  induction word generalizing t with
  | nil => exact ⟨t, rfl, respaced⟩
  | cons c word ih =>
      obtain ⟨rest, rfl, further⟩ := of_cons (solid c List.mem_cons_self) respaced
      obtain ⟨rest, rfl, last⟩ := ih (fun d member => solid d (List.mem_cons_of_mem c member)) further
      exact ⟨rest, rfl, last⟩

theorem of_gap {v : List Char} (blank : Gap v) (first : Starts s)
    (respaced : Respaced (v ++ s) t) : ∃ w rest, t = w ++ rest ∧ Gap w ∧ Respaced s rest := by
  generalize shape : v ++ s = text at respaced
  cases respaced with
  | nil => exact absurd (List.append_eq_nil_iff.mp shape).1 blank.filled
  | @char c more _ solid _ =>
      have starts : Starts (c :: more) := starts_cons.mpr solid
      rw [← shape] at starts
      exact absurd starts (blank.not_starts s)
  | gap other wide starts rest =>
      obtain ⟨-, rfl⟩ := eq_of_blanks_append blank.blank other.blank first starts shape
      exact ⟨_, _, rfl, wide, rest⟩

/-- A place behind a character that is not blank can be found again. -/
theorem of_append {text front back : List Char} (respaced : Respaced text t)
    (shape : text = front ++ back) (last : Ends front) :
    ∃ front' back', t = front' ++ back' ∧ Respaced front front' ∧ Respaced back back' := by
  induction respaced generalizing front with
  | nil =>
      obtain ⟨rfl, rfl⟩ := List.append_eq_nil_iff.mp shape.symm
      exact ⟨[], [], rfl, .nil, .nil⟩
  | @char c s t solid rest ih =>
      cases front with
      | nil =>
          rw [List.nil_append] at shape
          exact ⟨[], c :: t, rfl, .nil, shape ▸ .char solid rest⟩
      | cons d front =>
          obtain ⟨rfl, inside⟩ := List.cons.inj shape
          have inner : Ends front := by
            by_cases empty : front = []
            · simp [empty, Ends]
            · exact (ends_append empty [c]).mp last
          obtain ⟨front', back', rfl, before, behind⟩ := ih inside inner
          exact ⟨c :: front', back', rfl, .char solid before, behind⟩
  | @gap v w s t first second starts rest ih =>
      by_cases empty : front = []
      · rw [empty, List.nil_append] at shape
        rw [empty]
        exact ⟨[], w ++ t, rfl, .nil, shape ▸ .gap first second starts rest⟩
      · -- The gap cannot reach over the place, since a character that is not blank is before it.
        obtain ⟨more, rfl, rfl⟩ | ⟨more, rfl, -⟩ := List.append_eq_append_iff.mp shape
        · have filled : more ≠ [] := by
            rintro rfl
            obtain ⟨front, c, rfl, blank⟩ := first.last
            simp [Ends, blank] at last
          obtain ⟨front', back', rfl, before, behind⟩ := ih rfl ((ends_append filled v).mp last)
          exact ⟨w ++ front', back', (List.append_assoc ..).symm,
            .gap first second ((starts_append filled back).mp starts) before, behind⟩
        · obtain ⟨front, c, rfl⟩ := (List.eq_nil_or_concat front).resolve_left empty
          rw [List.concat_eq_append] at last first
          have solid := last c (by simp)
          rw [first.blank c (by simp)] at solid
          cases solid

end Respaced
end FlowGraph.Text
