import FlowGraph.Listing.Reading
import FlowGraph.Proofs.PlainText
import FlowGraph.Proofs.Spacing

/-! The shapes of lines, told as patterns. A header, a label and a name are
described by the pieces that they are put together from, without a scan, and
reading a line finds exactly the pieces that are there. So are the lines of a text,
of which those that say something are read. -/
namespace FlowGraph.Listing
open FlowGraph.Text

/-! Names and labels. -/

/-- A name as it may be written: name characters and groups of hexadecimal digits. -/
inductive WrittenName : List Char → Prop where
  | nil : WrittenName []
  | char {c : Char} {rest : List Char} : isNameChar c = true → WrittenName rest →
      WrittenName (c :: rest)
  | group {digits rest : List Char} : (∀ d ∈ digits, isHexDigit d = true) → WrittenName rest →
      WrittenName ('\\' :: '{' :: (digits ++ '}' :: rest))

/-- What a scan has still to find for the whole to be a written name, from the
place where it stands. -/
def WrittenFrom : NamePlace → List Char → Prop
  | .piece, name => WrittenName name
  | .brace, name => WrittenName ('\\' :: name)
  | .digits, name => ∀ digits, (∀ d ∈ digits, isHexDigit d = true) →
      WrittenName ('\\' :: '{' :: (digits ++ name))

theorem writtenFrom_of_scan (place : NamePlace) (name : List Char)
    (written : isWrittenName place name = true) : WrittenFrom place name := by
  fun_induction isWrittenName place name with
  | case1 => exact .nil
  | case2 c rest named ih => exact .char named (ih written)
  | case3 c rest _ ih =>
      simp only [Bool.and_eq_true, beq_iff_eq] at written
      obtain ⟨rfl, rest⟩ := written
      exact ih rest
  | case4 c rest ih =>
      simp only [Bool.and_eq_true, beq_iff_eq] at written
      obtain ⟨rfl, rest⟩ := written
      exact ih rest [] (by simp)
  | case5 rest ih =>
      intro digits hex
      exact .group hex (ih written)
  | case6 c rest _ ih =>
      simp only [Bool.and_eq_true] at written
      intro digits hex
      have longer := ih written.2 (digits ++ [c]) (by
        intro d member
        rcases List.mem_append.mp member with old | new
        · exact hex d old
        · rw [List.mem_singleton.mp new]
          exact written.1)
      rwa [List.append_assoc] at longer
  | case7 => cases written

theorem isWrittenName_iff {name : List Char} :
    isWrittenName .piece name = true ↔ WrittenName name := by
  refine ⟨writtenFrom_of_scan .piece name, fun written => ?_⟩
  induction written with
  | nil => rfl
  | char named _ ih => rw [isWrittenName, if_pos named, ih]
  | group hex _ ih => exact (isWrittenName_digits hex _).trans ih

/-- A label at the start of a line: a name that is not empty and a colon, and then
the end of the line or a blank. -/
structure LabelShape (line name rest : List Char) : Prop where
  shape : line = name ++ ':' :: rest
  named : name ≠ []
  written : WrittenName name
  ended : rest = [] ∨ ∃ c tail, rest = c :: tail ∧ isBlank c = true

theorem atWordEnd_iff {rest : List Char} :
    atWordEnd rest = true ↔ rest = [] ∨ ∃ c tail, rest = c :: tail ∧ isBlank c = true := by
  cases rest <;> simp [atWordEnd]

theorem labelParts?_iff_shape {line name rest : List Char} :
    labelParts? line = some (name, rest) ↔ LabelShape line name rest := by
  rw [labelParts?_eq_some_iff, isWrittenName_iff, atWordEnd_iff]
  exact ⟨fun ⟨shape, named, written, ended⟩ => ⟨shape, named, written, ended⟩,
    fun label => ⟨label.shape, label.named, label.written, label.ended⟩⟩

/-! Headers. -/

/-- A header: the word `method`, a name without blanks and opening parentheses,
parentheses with anything but a closing one between them, and a brace, with
blanks between these pieces. -/
inductive HeaderShape : (line name params : List Char) → Prop where
  | mk {name params gap before behind : List Char} :
      gap ≠ [] → (∀ c ∈ gap, isBlank c = true) → (∀ c ∈ before, isBlank c = true) →
      (∀ c ∈ behind, isBlank c = true) → name ≠ [] →
      (∀ c ∈ name, isBlank c = false ∧ c ≠ '(') → ')' ∉ params →
      HeaderShape
        ("method".toList ++
          (gap ++ (name ++ (before ++ '(' :: (params ++ ')' :: (behind ++ ['{']))))))
        name params

theorem exists_cut (p : Char → Bool) (cs : List Char) :
    ∃ front, cs = front ++ cs.dropWhile p ∧ cs.takeWhile p = front ∧ ∀ c ∈ front, p c = true :=
  ⟨_, List.takeWhile_append_dropWhile.symm, rfl, fun _ => List.mem_takeWhile_imp⟩

theorem exists_blanks (cs : List Char) :
    ∃ blanks, cs = blanks ++ trimStart cs ∧ ∀ c ∈ blanks, isBlank c = true := by
  obtain ⟨blanks, cut, -, blank⟩ := exists_cut isBlank cs
  exact ⟨blanks, cut, blank⟩

theorem headerShape_of_parts {line name params : List Char}
    (found : headerParts? line = some (name, params)) : HeaderShape line name params := by
  unfold headerParts? at found
  split at found
  · cases found
  · rename_i rest word
    obtain ⟨rfl, ended⟩ := afterWord?_eq_some_iff.mp word
    dsimp only at found
    split at found
    · rename_i c others inner named opened
      split at found
      · rename_i tail closed
        rw [Option.ite_none_right_eq_some] at found
        obtain ⟨last, parts⟩ := found
        obtain ⟨rfl, rfl⟩ := Prod.mk.inj (Option.some.inj parts)
        -- The line is cut at five places, and each cut keeps both of its parts.
        obtain ⟨gap, cut, gap_blank⟩ := exists_blanks rest
        obtain ⟨name, name_cut, name_eq, name_chars⟩ :=
          exists_cut (fun c => !isBlank c && c != '(') (trimStart rest)
        obtain ⟨before, blank_cut, before_blank⟩ :=
          exists_blanks ((trimStart rest).dropWhile fun c => !isBlank c && c != '(')
        obtain ⟨params, inner_cut, params_eq, params_chars⟩ := exists_cut (· != ')') inner
        obtain ⟨behind, tail_cut, behind_blank⟩ := exists_blanks tail
        rw [name_eq] at named ⊢
        rw [params_eq, cut, name_cut, blank_cut, opened, inner_cut, closed, tail_cut, last]
        have gapped : gap ≠ [] := by
          rintro rfl
          rw [cut, name_cut, named] at ended
          have solid := name_chars c (by simp [named])
          rw [Bool.and_eq_true, Bool.not_eq_true'] at solid
          exact absurd ended (by simp [atWordEnd, solid.1])
        refine .mk gapped gap_blank before_blank behind_blank (by simp [named]) ?_ ?_
        · intro d member
          simpa using name_chars d member
        · intro member
          simpa using params_chars _ member
      · cases found
    · cases found

theorem parts_of_headerShape {line name params : List Char}
    (header : HeaderShape line name params) : headerParts? line = some (name, params) := by
  cases header with
  | @mk _ _ gap before behind gapped gap_blank before_blank behind_blank filled named closed =>
      generalize rest_eq : before ++ '(' :: (params ++ ')' :: (behind ++ ['{'])) = rest
      have word : afterWord? "method" ("method".toList ++ (gap ++ (name ++ rest))) =
          some (gap ++ (name ++ rest)) := by
        obtain ⟨d, more, rfl⟩ := List.exists_cons_of_ne_nil gapped
        exact afterWord?_eq_some_iff.mpr ⟨rfl, gap_blank d List.mem_cons_self⟩
      have named' : ∀ c ∈ name, (!isBlank c && c != '(') = true := by
        intro c member
        simpa using named c member
      have ends : rest.takeWhile (fun c => !isBlank c && c != '(') = [] ∧
          rest.dropWhile (fun c => !isBlank c && c != '(') = rest := by
        rw [← rest_eq]
        cases before with
        | nil => exact ⟨rfl, rfl⟩
        | cons d more =>
            have blank := before_blank d List.mem_cons_self
            simp [blank]
      have opened : trimStart rest = '(' :: (params ++ ')' :: (behind ++ ['{'])) := by
        rw [← rest_eq]
        exact trimStart_append before_blank (starts_cons.mpr (by decide))
      have inner : ∀ c ∈ params, (c != ')') = true := by
        intro c member
        simpa using ne_of_mem_of_not_mem member closed
      have last : trimStart (behind ++ ['{']) = ['{'] :=
        trimStart_append behind_blank (starts_cons.mpr (by decide))
      obtain ⟨c, others, rfl⟩ := List.exists_cons_of_ne_nil filled
      have started : trimStart (gap ++ (c :: others ++ rest)) = c :: others ++ rest :=
        trimStart_append gap_blank (starts_cons.mpr (named c List.mem_cons_self).1)
      rw [headerParts?, word]
      simp only [started, List.takeWhile_append_of_pos named', List.dropWhile_append_of_pos named',
        ends, opened, List.append_nil]
      simp [List.takeWhile_append_of_pos inner, List.dropWhile_append_of_pos inner, last]

theorem headerParts?_iff_shape {line name params : List Char} :
    headerParts? line = some (name, params) ↔ HeaderShape line name params :=
  ⟨headerShape_of_parts, parts_of_headerShape⟩

/-! Lines of a body. -/

/-- What a line of a body says: it is a brace, a label alone, a label and an
instruction, or an instruction without a label. -/
inductive Tells (line : List Char) : BodyLine → Prop where
  | close : line = ['}'] → Tells line .close
  | label {name blanks : List Char} : LabelShape line name blanks →
      (∀ c ∈ blanks, isBlank c = true) → Tells line (.label ⟨resolved name⟩)
  | labelled {name gap text : List Char} {c : Char} : LabelShape line name (gap ++ c :: text) →
      (∀ d ∈ gap, isBlank d = true) → isBlank c = false →
      Tells line (.instruction (some ⟨resolved name⟩) (readOp (c :: text)))
  | unlabelled : line ≠ ['}'] → (∀ name rest, ¬ LabelShape line name rest) →
      Tells line (.instruction none (readOp line))

theorem ne_brace_of_label {line name rest : List Char}
    (found : labelParts? line = some (name, rest)) : line ≠ ['}'] := by
  intro brace
  have free : labelParts? ['}'] = none := by decide
  rw [brace, free] at found
  cases found

theorem read_label_alone {line name rest : List Char}
    (found : labelParts? line = some (name, rest)) (alone : trimStart rest = []) :
    BodyLine.read line = .label ⟨resolved name⟩ := by
  rw [BodyLine.read, if_neg (ne_brace_of_label found), found]
  simp only [alone]

theorem read_label_first {line name rest text : List Char}
    (found : labelParts? line = some (name, rest)) (trimmed : trimStart rest = text)
    (filled : text ≠ []) :
    BodyLine.read line = .instruction (some ⟨resolved name⟩) (readOp text) := by
  obtain ⟨c, others, rfl⟩ := List.exists_cons_of_ne_nil filled
  rw [BodyLine.read, if_neg (ne_brace_of_label found), found]
  simp only [trimmed]

theorem read_of_no_label {line : List Char} (open_ : line ≠ ['}'])
    (free : labelParts? line = none) : BodyLine.read line = .instruction none (readOp line) := by
  rw [BodyLine.read, if_neg open_, free]

theorem isBlank_of_trimStart {cs rest : List Char} {c : Char} (trimmed : trimStart cs = c :: rest) :
    isBlank c = false := by
  have first := List.head?_dropWhile_not isBlank cs
  rw [trimStart] at trimmed
  simpa [trimmed] using first

theorem labelParts?_eq_none_iff {line : List Char} :
    labelParts? line = none ↔ ∀ name rest, ¬ LabelShape line name rest := by
  simp only [← labelParts?_iff_shape, Option.eq_none_iff_forall_ne_some, Prod.forall]

theorem tells_read (line : List Char) : Tells line (BodyLine.read line) := by
  by_cases brace : line = ['}']
  · rw [BodyLine.read, if_pos brace]
    exact .close brace
  · cases found : labelParts? line with
    | none =>
        rw [read_of_no_label brace found]
        exact .unlabelled brace (labelParts?_eq_none_iff.mp found)
    | some parts =>
        obtain ⟨name, rest⟩ := parts
        obtain ⟨blanks, cut, blank⟩ := exists_blanks rest
        have label := labelParts?_iff_shape.mp found
        cases trimmed : trimStart rest with
        | nil =>
            rw [trimmed, List.append_nil] at cut
            rw [read_label_alone found trimmed]
            exact .label (cut ▸ label) blank
        | cons c text =>
            rw [trimmed] at cut
            rw [read_label_first found trimmed (List.cons_ne_nil c text)]
            exact .labelled (cut ▸ label) blank (isBlank_of_trimStart trimmed)

/-- Reading a line finds what it tells. -/
theorem read_eq_iff_tells {line : List Char} {said : BodyLine} :
    BodyLine.read line = said ↔ Tells line said := by
  constructor
  · rintro rfl
    exact tells_read line
  · intro tells
    cases tells with
    | close brace => rw [BodyLine.read, if_pos brace]
    | label shape blank =>
        exact read_label_alone (labelParts?_iff_shape.mpr shape)
          (List.dropWhile_eq_nil_iff.mpr blank)
    | labelled shape blank solid =>
        exact read_label_first (labelParts?_iff_shape.mpr shape)
          (trimStart_append blank (starts_cons.mpr solid))
          (List.cons_ne_nil _ _)
    | unlabelled brace free => exact read_of_no_label brace (labelParts?_eq_none_iff.mpr free)

/-- Reading a header gives the name and the parameters that stand in it. -/
theorem read?_eq_some_iff {line : List Char} {header : Header} :
    Header.read? line = some header ↔ ∃ name params, HeaderShape line name params ∧
      Header.mk (resolved name) (readParams params) = header := by
  simp only [Header.read?, Option.map_eq_some_iff, Prod.exists, headerParts?_iff_shape]

/-! Lines of a text. -/

/-- A line that says nothing: all of it is blank, or all that stands before two
slashes in it. -/
inductive Silent : List Char → Prop where
  | blank {text : List Char} : (∀ c ∈ text, isBlank c = true) → Silent text
  | comment {lead rest : List Char} : (∀ c ∈ lead, isBlank c = true) →
      Silent (lead ++ '/' :: '/' :: rest)

/-- Lines numbered on from `number`, and those of them that say something, without
the blanks at their ends. -/
inductive Spoken : (number : Nat) → List (List Char) → List Line → Prop where
  | nil {number : Nat} : Spoken number [] []
  | silent {number : Nat} {text : List Char} {texts : List (List Char)} {lines : List Line} :
      Silent text → Spoken (number + 1) texts lines → Spoken number (text :: texts) lines
  | line {number : Nat} {lead shown back : List Char} {texts : List (List Char)}
      {lines : List Line} : (∀ c ∈ lead, isBlank c = true) → (∀ c ∈ back, isBlank c = true) →
      Tight shown → (∀ rest, shown ≠ '/' :: '/' :: rest) → Spoken (number + 1) texts lines →
        Spoken number ((lead ++ shown ++ back) :: texts) (⟨number, shown⟩ :: lines)

/-- The lines of a text that say something, counted from 1. -/
inductive LinesOf (text : String) (lines : List Line) : Prop where
  | mk {texts : List (List Char)} : texts ≠ [] → (∀ line ∈ texts, '\n' ∉ line) →
      ['\n'].intercalate texts = text.toList → Spoken 1 texts lines → LinesOf text lines

/-- A text that starts with no blank ends with blanks after a character that is none. -/
theorem exists_tight_cut {c : Char} (solid : isBlank c = false) (rest : List Char) :
    ∃ shown back, c :: rest = shown ++ back ∧ Tight shown ∧ ∀ d ∈ back, isBlank d = true := by
  obtain ⟨blanks, cut, blank⟩ := exists_blanks (c :: rest).reverse
  cases trimmed : trimStart (c :: rest).reverse with
  | nil =>
      rw [trimmed, List.append_nil] at cut
      have first := blank c (cut ▸ List.mem_reverse.mpr List.mem_cons_self)
      rw [solid] at first
      cases first
  | cons d front =>
      have shape : c :: rest = front.reverse ++ [d] ++ blanks.reverse := by
        rw [← List.reverse_inj, cut, trimmed]
        simp
      refine ⟨front.reverse ++ [d], blanks.reverse, shape, ⟨?_, ?_⟩, ?_⟩
      · cases turned : front.reverse with
        | nil =>
            exact ⟨d, [], rfl, isBlank_of_trimStart trimmed⟩
        | cons e more =>
            rw [turned] at shape
            cases shape
            exact ⟨c, more ++ [d], rfl, solid⟩
      · exact ⟨front.reverse, d, rfl, isBlank_of_trimStart trimmed⟩
      · intro e member
        exact blank e (List.mem_reverse.mp member)

/-- A line is blank, or it has a part that is tight between blanks. -/
theorem trim_cases (text : List Char) :
    ((∀ c ∈ text, isBlank c = true) ∧ trim text = []) ∨
      ∃ lead back, text = lead ++ trim text ++ back ∧ (∀ c ∈ lead, isBlank c = true) ∧
        (∀ c ∈ back, isBlank c = true) ∧ Tight (trim text) := by
  obtain ⟨lead, cut, before⟩ := exists_blanks text
  cases trimmed : trimStart text with
  | nil =>
      rw [trimmed, List.append_nil] at cut
      refine .inl ⟨cut ▸ before, ?_⟩
      rw [trim, trimmed]
      rfl
  | cons c rest =>
      obtain ⟨shown, back, shape, tight, behind⟩ :=
        exists_tight_cut (isBlank_of_trimStart trimmed) rest
      rw [trimmed, shape, ← List.append_assoc] at cut
      have found : trim text = shown := by
        rw [cut]
        exact tight.trim_pad before behind
      rw [found]
      exact .inr ⟨lead, back, cut, before, behind, tight⟩

theorem isSilent_iff {l : Line} :
    l.isSilent = true ↔ l.text = [] ∨ ∃ rest, l.text = '/' :: '/' :: rest := by
  rw [Line.isSilent, Bool.or_eq_true, List.isEmpty_iff, List.isPrefixOf_iff_prefix]
  exact or_congr_right (exists_congr fun rest => eq_comm)

theorem spoken_cons {number : Nat} {texts : List (List Char)} {lines : List Line}
    (rest : Spoken (number + 1) texts (lines.filter (!·.isSilent))) (text : List Char) :
    Spoken number (text :: texts) ((⟨number, trim text⟩ :: lines).filter (!·.isSilent)) := by
  obtain ⟨blank, empty⟩ | ⟨lead, back, cut, before, behind, tight⟩ := trim_cases text
  · rw [empty]
    exact .silent (.blank blank) rest
  · by_cases comment : ∃ more, trim text = '/' :: '/' :: more
    · have hidden : (Line.mk number (trim text)).isSilent = true :=
        isSilent_iff.mpr (.inr comment)
      obtain ⟨more, comment⟩ := comment
      rw [List.filter_cons_of_neg (by simp [hidden])]
      rw [comment, List.append_assoc] at cut
      exact .silent (cut ▸ .comment before) rest
    · have shown : (Line.mk number (trim text)).isSilent = false := by
        rw [← Bool.not_eq_true, isSilent_iff, not_or]
        exact ⟨tight.ne_nil, comment⟩
      rw [List.filter_cons_of_pos (by simp [shown])]
      have line := Spoken.line before behind tight (not_exists.mp comment) rest
      rw [← cut] at line
      exact line

theorem spoken_zipIdx (texts : List (List Char)) (number : Nat) :
    Spoken number texts
      (((texts.zipIdx number).map fun p => Line.mk p.2 (trim p.1)).filter (!·.isSilent)) := by
  induction texts generalizing number with
  | nil => exact .nil
  | cons text texts ih =>
      rw [List.zipIdx_cons, List.map_cons]
      exact spoken_cons (ih (number + 1)) text

theorem not_mem_of_mem_splitOn {c : Char} {cs part : List Char} (member : part ∈ cs.splitOn c) :
    c ∉ part := by
  induction cs generalizing part with
  | nil =>
      rw [List.splitOn_nil, List.mem_singleton] at member
      simp [member]
  | cons d cs ih =>
      rw [List.splitOn_cons_eq_if_modifyHead] at member
      split at member
      · obtain rfl | old := List.mem_cons.mp member
        · exact List.not_mem_nil
        · exact ih old
      · next other =>
          cases pieces : cs.splitOn c with
          | nil => exact absurd pieces (List.splitOn_ne_nil c cs)
          | cons first others =>
              rw [pieces] at ih member
              obtain ⟨clear, rest⟩ := List.forall_mem_cons.mp @ih
              obtain rfl | old := List.mem_cons.mp member
              · rw [List.mem_cons, not_or]
                exact ⟨fun same => other (by simp [same]), clear⟩
              · exact rest _ old

theorem linesOf_spokenLines (text : String) : LinesOf text (spokenLines (textLines text)) :=
  .mk (List.splitOn_ne_nil _ _) (fun _ => not_mem_of_mem_splitOn) (List.intercalate_splitOn _)
    (spoken_zipIdx _ 1)

end FlowGraph.Listing
