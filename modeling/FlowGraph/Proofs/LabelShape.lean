import FlowGraph.Listing.Grammar
import FlowGraph.Listing.Printing
import FlowGraph.Proofs.Escaping

/-! When a written line looks like a label. The writer's scan for a label and
the reader's agree on every line. One more group keeps plain text apart from
every other shape, but not always from a label: exactly the fragile texts are
written as lines that start with one. -/
namespace FlowGraph.Listing
open FlowGraph.Text

/-! Written names, as the reader and as the writer scan them. -/

theorem isNameMark_of_isWrittenName (place : NamePlace) (name : List Char)
    (written : isWrittenName place name = true) : ∀ x ∈ name, isNameMark x = true := by
  fun_induction isWrittenName place name with
  | case1 => simp
  | case2 c rest named ih =>
      exact List.forall_mem_cons.mpr ⟨by simp [isNameMark, named], ih written⟩
  | case3 c rest _ ih =>
      simp only [Bool.and_eq_true, beq_iff_eq] at written
      exact List.forall_mem_cons.mpr ⟨by simp [isNameMark, written.1], ih written.2⟩
  | case4 c rest ih =>
      simp only [Bool.and_eq_true, beq_iff_eq] at written
      exact List.forall_mem_cons.mpr ⟨by simp [isNameMark, written.1], ih written.2⟩
  | case5 rest ih =>
      exact List.forall_mem_cons.mpr ⟨by decide, ih written⟩
  | case6 c rest _ ih =>
      simp only [Bool.and_eq_true] at written
      have named := isNameChar_of_isHexDigit written.1
      exact List.forall_mem_cons.mpr ⟨by simp [isNameMark, named], ih written.2⟩
  | case7 => cases written

/-- What the writer's scan gives for a text, from the place where the reader's
scan stands. -/
def afterNameAt? : NamePlace → List Char → Option (List Char)
  | .piece, text => afterName? false text
  | .brace, text => afterName? false ('\\' :: text)
  | .digits, text => afterName? true text

theorem afterNameAt?_append (place : NamePlace) (name tail : List Char)
    (written : isWrittenName place name = true) :
    afterNameAt? place (name ++ tail) = afterName? false tail := by
  fun_induction isWrittenName place name with
  | case1 => rfl
  | case2 c rest named ih =>
      have plain := ne_of_class named (by decide : isNameChar '\\' = false)
      rw [← ih written]
      simp only [afterNameAt?, List.cons_append]
      rw [afterName?, if_pos named]
      intro more same
      exact absurd same plain
  | case3 c rest _ ih =>
      simp only [Bool.and_eq_true, beq_iff_eq] at written
      rw [← ih written.2, written.1]
      rfl
  | case4 c rest ih =>
      simp only [Bool.and_eq_true, beq_iff_eq] at written
      rw [← ih written.2, written.1]
      rfl
  | case5 rest ih =>
      rw [← ih written]
      rfl
  | case6 c rest open_ ih =>
      simp only [Bool.and_eq_true] at written
      rw [← ih written.2]
      simp only [afterNameAt?, List.cons_append]
      rw [afterName?, if_neg open_, if_pos written.1]
  | case7 => cases written

theorem exists_written_of_afterName? (inGroup : Bool) (text tail : List Char)
    (found : afterName? inGroup text = some tail) :
    ∃ name, text = name ++ tail ∧
      isWrittenName (if inGroup then .digits else .piece) name = true := by
  fun_induction afterName? inGroup text with
  | case1 rest ih =>
      obtain ⟨name, shape, written⟩ := ih found
      exact ⟨'\\' :: '{' :: name, by rw [shape]; rfl, written⟩
  | case2 c rest _ named ih =>
      obtain ⟨name, shape, written⟩ := ih found
      refine ⟨c :: name, by rw [shape]; rfl, ?_⟩
      simpa [isWrittenName, named] using written
  | case3 c rest _ _ =>
      cases found
      exact ⟨[], rfl, rfl⟩
  | case4 =>
      cases found
      exact ⟨[], rfl, rfl⟩
  | case5 rest ih =>
      obtain ⟨name, shape, written⟩ := ih found
      exact ⟨'}' :: name, by rw [shape]; rfl, written⟩
  | case6 c rest open_ hex ih =>
      obtain ⟨name, shape, written⟩ := ih found
      refine ⟨c :: name, by rw [shape]; rfl, ?_⟩
      simpa [isWrittenName, open_, hex] using written
  | case7 => cases found
  | case8 => cases found

/-- Whether the name that a text starts with, perhaps an empty one, is followed
by a colon and then by a blank or nothing. -/
def colonFollows (text : List Char) : Bool :=
  match afterName? false text with
  | some (c :: rest) => c == ':' && atWordEnd rest
  | _ => false

theorem colonFollows_append {name : List Char} (written : isWrittenName .piece name = true)
    (tail : List Char) : colonFollows (name ++ tail) = colonFollows tail := by
  have skipped : afterName? false (name ++ tail) = afterName? false tail :=
    afterNameAt?_append .piece name tail written
  rw [colonFollows, colonFollows, skipped]

/-- A character at which the scan of a name ends. -/
theorem afterName?_cons {c : Char} (unnamed : isNameChar c = false) (plain : c ≠ '\\')
    (rest : List Char) : afterName? false (c :: rest) = some (c :: rest) := by
  rw [afterName?, if_neg (by simp [unnamed])]
  intro more same
  exact absurd same plain

theorem colonFollows_cons {c : Char} (unnamed : isNameChar c = false) (plain : c ≠ '\\')
    (rest : List Char) : colonFollows (c :: rest) = (c == ':' && atWordEnd rest) := by
  rw [colonFollows, afterName?_cons unnamed plain]

theorem colonFollows_iff {text : List Char} :
    colonFollows text = true ↔
      ∃ name rest, text = name ++ ':' :: rest ∧ isWrittenName .piece name = true ∧
        atWordEnd rest = true := by
  constructor
  · intro follows
    unfold colonFollows at follows
    split at follows
    · rename_i c rest found
      simp only [Bool.and_eq_true, beq_iff_eq] at follows
      obtain ⟨rfl, ended⟩ := follows
      obtain ⟨name, shape, written⟩ := exists_written_of_afterName? false text _ found
      exact ⟨name, rest, shape, written, ended⟩
    · cases follows
  · rintro ⟨name, rest, rfl, written, ended⟩
    rw [colonFollows_append written, colonFollows_cons (by decide) (by decide), ended]
    rfl

theorem head?_ne_colon_iff {name rest : List Char} (written : isWrittenName .piece name = true) :
    (name ++ ':' :: rest).head? ≠ some ':' ↔ name ≠ [] := by
  cases name with
  | nil => simp
  | cons c name =>
      have mark := isNameMark_of_isWrittenName _ _ written c List.mem_cons_self
      have differs : c ≠ ':' := ne_of_class mark (by decide)
      simp [differs]

theorem startsWithLabel_iff {line : List Char} :
    startsWithLabel line = true ↔ colonFollows line = true ∧ line.head? ≠ some ':' := by
  unfold startsWithLabel colonFollows
  cases found : afterName? false line with
  | none => simp
  | some tail =>
      cases tail with
      | nil => simp
      | cons c rest =>
          obtain ⟨name, shape, written⟩ := exists_written_of_afterName? false line _ found
          simp only [Bool.and_eq_true, beq_iff_eq, decide_eq_true_eq]
          constructor
          · rintro ⟨⟨rfl, longer⟩, ended⟩
            refine ⟨⟨rfl, ended⟩, ?_⟩
            rw [shape] at longer ⊢
            apply (head?_ne_colon_iff written).mpr
            intro empty
            simp [empty] at longer
          · rintro ⟨⟨rfl, ended⟩, opened⟩
            rw [shape] at opened ⊢
            have filled := (head?_ne_colon_iff written).mp opened
            have counted := List.length_pos_iff.mpr filled
            refine ⟨⟨rfl, ?_⟩, ended⟩
            simp only [List.length_append, List.length_cons]
            omega

theorem labelParts?_eq_some_iff {line name rest : List Char} :
    labelParts? line = some (name, rest) ↔
      line = name ++ ':' :: rest ∧ name ≠ [] ∧ isWrittenName .piece name = true ∧
        atWordEnd rest = true := by
  unfold labelParts?
  constructor
  · intro found
    split at found
    · rename_i rest' cut
      split at found
      · rename_i fits
        simp only [Bool.and_eq_true, Bool.not_eq_true', List.isEmpty_eq_false_iff] at fits
        cases found
        refine ⟨?_, fits.1.1, fits.1.2, fits.2⟩
        rw [← cut, List.takeWhile_append_dropWhile]
      · cases found
    · cases found
  · rintro ⟨rfl, filled, written, ended⟩
    have inner : ∀ x ∈ name, (x != ':') = true := by
      intro x member
      have mark := isNameMark_of_isWrittenName _ _ written x member
      simpa using ne_of_class mark (by decide : isNameMark ':' = false)
    simp [List.takeWhile_append_of_pos inner, List.dropWhile_append_of_pos inner, filled, written,
      ended]

/-- The writer's scan for a label accepts what the reader's accepts. -/
theorem startsWithLabel_iff_labelParts? {line : List Char} :
    startsWithLabel line = true ↔ ∃ name rest, labelParts? line = some (name, rest) := by
  simp only [startsWithLabel_iff, colonFollows_iff, labelParts?_eq_some_iff]
  constructor
  · rintro ⟨⟨name, rest, rfl, written, ended⟩, opened⟩
    exact ⟨name, rest, rfl, (head?_ne_colon_iff written).mp opened, written, ended⟩
  · rintro ⟨name, rest, rfl, filled, written, ended⟩
    exact ⟨⟨name, rest, rfl, written, ended⟩, (head?_ne_colon_iff written).mpr filled⟩

end FlowGraph.Listing
