import FlowGraph.Proofs.Renumbering

/-! Edits of a listing that change nothing in it. Lines that say nothing may come and
go, and the blanks at the ends of a line may be others. What such edits leave is
read as before, and an error tells the lines where they stand afterwards. -/
namespace FlowGraph.Listing
open FlowGraph.Text

/-- Blanks for both ends of a line. -/
structure Padding where
  lead : List Char
  back : List Char
  blank_lead : ∀ c ∈ lead, isBlank c = true
  blank_back : ∀ c ∈ back, isBlank c = true

def Padding.around (p : Padding) (core : List Char) : List Char := p.lead ++ core ++ p.back

/-- What is done with one line. -/
inductive LineEdit where
  /-- The line stays, but for the blanks at its ends. -/
  | pad (core : List Char) (old new : Padding)
  | insert (text : List Char) (silent : Silent text)
  | delete (text : List Char) (silent : Silent text)

/-- The lines before they are edited. -/
def linesBefore : List LineEdit → List (List Char)
  | [] => []
  | .pad core old _ :: rest => old.around core :: linesBefore rest
  | .insert _ _ :: rest => linesBefore rest
  | .delete text _ :: rest => text :: linesBefore rest

/-- The lines after they are edited. -/
def linesAfter : List LineEdit → List (List Char)
  | [] => []
  | .pad core _ new :: rest => new.around core :: linesAfter rest
  | .insert text _ :: rest => text :: linesAfter rest
  | .delete _ _ :: rest => linesAfter rest

/-- How many lines stand above the line that had `i` lines above it. Of a line that
is deleted this tells where it would stand. -/
def linesAbove : List LineEdit → (i : Nat) → Nat
  | [], i => i
  | .insert _ _ :: rest, i => linesAbove rest i + 1
  | .pad _ _ _ :: _, 0 => 0
  | .pad _ _ _ :: rest, i + 1 => linesAbove rest i + 1
  | .delete _ _ :: _, 0 => 0
  | .delete _ _ :: rest, i + 1 => linesAbove rest i

/-- The number that edits give to the line with a given number. -/
def newNumber (edits : List LineEdit) (number : Nat) : Nat := linesAbove edits (number - 1) + 1

/-! Lines that stay. -/

theorem trim_of_blank {text : List Char} (blank : ∀ c ∈ text, isBlank c = true) : trim text = [] := by
  rw [trim, trimStart, List.dropWhile_eq_nil_iff.mpr blank]
  rfl

theorem Padding.trim_around (p : Padding) (core : List Char) : trim (p.around core) = trim core := by
  obtain ⟨blank, empty⟩ | ⟨lead, back, cut, blank_lead, blank_back, tight⟩ := trim_cases core
  · rw [empty]
    apply trim_of_blank
    simp only [around, List.mem_append]
    rintro c ((first | inner) | last)
    · exact p.blank_lead c first
    · exact blank c inner
    · exact p.blank_back c last
  · have wider : p.around core = (p.lead ++ lead) ++ trim core ++ (back ++ p.back) := by
      conv => lhs; rw [around, cut]
      simp only [List.append_assoc]
    rw [wider]
    exact tight.trim_pad (List.forall_mem_append.mpr ⟨p.blank_lead, blank_lead⟩)
      (List.forall_mem_append.mpr ⟨blank_back, p.blank_back⟩)

/-- Two slashes stay when the blanks behind them go. -/
theorem Silent.isSilent {text : List Char} (silent : Silent text) (number : Nat) :
    (Line.mk number (trim text)).isSilent = true := by
  apply isSilent_iff.mpr
  cases silent with
  | blank blank => exact .inl (trim_of_blank blank)
  | @comment lead rest blank =>
      obtain ⟨shown, back, shape, tight, behind⟩ :=
        exists_tight_cut (c := '/') (by decide) ('/' :: rest)
      refine .inr ?_
      have found : trim (lead ++ '/' :: '/' :: rest) = shown := by
        rw [shape, ← List.append_assoc]
        exact tight.trim_pad blank behind
      rw [found]
      match shown, tight.ne_nil, shape with
      | [c], _, shape =>
          cases shape
          exact absurd (behind '/' List.mem_cons_self) (by decide)
      | c :: d :: more, _, shape =>
          cases shape
          exact ⟨more, rfl⟩

theorem linesAbove_pad {edits front rest : List LineEdit} {core : List Char} {old new : Padding}
    (shape : edits = front ++ .pad core old new :: rest) :
    linesAbove edits (linesBefore front).length = (linesAfter front).length := by
  subst shape
  induction front with
  | nil => rfl
  | cons edit front ih =>
      cases edit with
      | pad core old new => exact congrArg (· + 1) ih
      | insert text silent => exact congrArg (· + 1) ih
      | delete text silent => exact ih

/-! Lines that say something. -/

theorem spokenFrom_silent {text : List Char} (silent : Silent text) (number : Nat)
    (texts : List (List Char)) :
    spokenFrom number (text :: texts) = spokenFrom (number + 1) texts := by
  rw [spokenFrom_cons, List.filter_cons_of_neg (by simp [silent.isSilent number])]
  rfl

-- The induction walks along both lists at once, so their first lines have numbers of their own.
theorem spokenFrom_linesAfter (edits : List LineEdit) {m n : Nat} {f : Nat → Nat}
    (moves : ∀ i, f (m + i) = n + linesAbove edits i) :
    spokenFrom n (linesAfter edits) = (spokenFrom m (linesBefore edits)).map (Line.renumber f) := by
  induction edits generalizing m n with
  | nil => rfl
  | cons edit edits ih =>
      cases edit with
      | pad core old new =>
          have here : Line.mk n (trim (new.around core)) =
              (Line.mk m (trim (old.around core))).renumber f := by
            have start : f m = n := moves 0
            rw [Padding.trim_around, Padding.trim_around, ← start]
            rfl
          have below : ∀ i, f (m + 1 + i) = n + 1 + linesAbove edits i := by
            intro i
            have next := moves (i + 1)
            rw [linesAbove] at next
            rw [Nat.add_right_comm, Nat.add_assoc, next]
            omega
          rw [linesAfter, linesBefore, spokenFrom_cons, spokenFrom_cons, List.map_append, ih below, here,
            ← filter_renumber]
          rfl
      | insert text silent =>
          rw [linesAfter, spokenFrom_silent silent, linesBefore]
          apply ih
          intro i
          rw [moves i, linesAbove]
          omega
      | delete text silent =>
          rw [linesBefore, spokenFrom_silent silent, linesAfter]
          apply ih
          intro i
          have next := moves (i + 1)
          rw [linesAbove] at next
          rw [← next, Nat.add_right_comm, Nat.add_assoc]

/-- Edited lines are read as before, and an error tells the lines that it told before
where they stand now. -/
theorem edits_immaterial (edits : List LineEdit) :
    readLines (linesAfter edits) =
        (readLines (linesBefore edits)).mapError (ReadError.renumber (newNumber edits)) ∧
    (∀ front core old new rest, edits = front ++ .pad core old new :: rest →
      newNumber edits ((linesBefore front).length + 1) = (linesAfter front).length + 1) ∧
    ∀ a b : String, textLines a = linesBefore edits → textLines b = linesAfter edits →
      read b = (read a).mapError (ReadError.renumber (newNumber edits)) := by
  have moves : ∀ i, newNumber edits (1 + i) = 1 + linesAbove edits i := by
    intro i
    rw [newNumber, Nat.add_sub_cancel_left, Nat.add_comm]
  have moved : Reader.run {} (spokenLines (linesAfter edits)) =
      Reader.run { finished := #[] }
        ((spokenLines (linesBefore edits)).map (Line.renumber (newNumber edits))) := by
    rw [spokenLines_eq, spokenFrom_linesAfter edits moves]
    rfl
  have lines : readLines (linesAfter edits) =
      (readLines (linesBefore edits)).mapError (ReadError.renumber (newNumber edits)) := by
    rw [readLines_of_rebased moved]
    cases readLines (linesBefore edits) <;> rfl
  refine ⟨lines, ?_, ?_⟩
  · intro front core old new rest shape
    exact congrArg (· + 1) (linesAbove_pad shape)
  · intro a b old new
    rw [read, read, new, lines, old]
    cases readLines (linesBefore edits) <;> rfl

/-- No blanks. -/
def Padding.none : Padding := ⟨[], [], by simp, by simp⟩

/-- One blank at the end, such as a line break of two characters leaves there. -/
def Padding.ofBack (c : Char) (blank : isBlank c = true) : Padding :=
  ⟨[], [c], by simp, List.forall_mem_singleton.mpr blank⟩

/-- A comment is put on top, and a blank line goes from above a label to below it. -/
def sampleEdits : List LineEdit :=
  [.insert "// top".toList (@Silent.comment [] " top".toList (by simp)),
    .pad "method m() \x7b".toList .none (.ofBack '\r' (by decide)),
    .delete [] (.blank (by simp)),
    .pad "L:".toList .none (.ofBack '\t' (by decide)),
    .insert [] (.blank (by simp)),
    .pad "M: x".toList .none .none]

/-- The label under the label was on line 4 and is on line 5. -/
theorem sampleEdits_immaterial :
    textLines "method m() \x7b\n\nL:\nM: x" = linesBefore sampleEdits ∧
      textLines "// top\nmethod m() \x7b\r\nL:\t\n\nM: x" = linesAfter sampleEdits ∧
      read "method m() \x7b\n\nL:\nM: x" = .error ⟨4, .labelAfterLabel ⟨"M"⟩ ⟨"L"⟩ 3⟩ ∧
      read "// top\nmethod m() \x7b\r\nL:\t\n\nM: x" =
        .error ⟨5, .labelAfterLabel ⟨"M"⟩ ⟨"L"⟩ 3⟩ := by
  have old : textLines "method m() \x7b\n\nL:\nM: x" = linesBefore sampleEdits := by rfl
  have new : textLines "// top\nmethod m() \x7b\r\nL:\t\n\nM: x" = linesAfter sampleEdits := by rfl
  have refused : read "method m() \x7b\n\nL:\nM: x" =
      .error ⟨4, .labelAfterLabel ⟨"M"⟩ ⟨"L"⟩ 3⟩ := by rfl
  refine ⟨old, new, refused, ?_⟩
  rw [(edits_immaterial sampleEdits).2.2 _ _ old new, refused]
  rfl

end FlowGraph.Listing
