import FlowGraph.Proofs.LineShapes

/-! Written lines, read back one by one. Every operation is read back from its
text, every header from its line, and an instruction from its line exactly if
the line does not start with a label that the instruction has not got. -/
namespace FlowGraph.Listing
open FlowGraph.Text

theorem resolved_escapeWith {policy : Nat → Char → Bool} {text : String}
    (guards : Guards policy text.toList) : resolved (escapeWith policy text.toList) = text := by
  rw [resolved, guards.unescape_eq, String.ofList_toList]

theorem resolved_writeName (name : String) : resolved (writeName name) = name := by
  rw [writeName, escapeName]
  exact resolved_escapeWith (guards_name name.toList)

theorem resolved_escapeText (text : String) : resolved (escapeText text.toList) = text := by
  rw [escapeText]
  exact resolved_escapeWith (guards_text text.toList)

theorem resolved_escapePlain (text : String) : resolved (escapePlain text.toList) = text := by
  obtain ⟨policy, guards, written⟩ := exists_guards_escapePlain text.toList
  rw [written]
  exact resolved_escapeWith guards

theorem isNameMark_of_mem_writeName {name : String} {x : Char} (member : x ∈ writeName name) :
    isNameMark x = true :=
  isNameMark_of_mem_escapeName member

theorem tight_writeName (name : String) : Tight (writeName name) := (guards_name name.toList).tight

theorem solid_writeName (name : String) : ∀ c ∈ writeName name, isBlank c = false := by
  intro c member
  exact isBlank_of_isNameMark (isNameMark_of_mem_writeName member)

theorem word_writeName (name : String) : Word (writeName name) :=
  ⟨(tight_writeName name).ne_nil, solid_writeName name⟩

theorem isWrittenName_writeName (name : String) : isWrittenName .piece (writeName name) = true := by
  by_cases empty : name.toList = []
  · rw [writeName, escapeName, empty]
    decide
  · have quiet : Quiet (fun _ c => !isNameChar c) 0 name.toList := by
      intro p _
      cases named : isNameChar p.1 <;> simp [named]
    rw [writeName, escapeName, escapeWith_of_ne_nil _ empty]
    exact quiet.written

/-! Operations. -/

theorem tight_escapeText (text : List Char) : Tight (escapeText text) := (guards_text text).tight

theorem tight_escapePlain (text : List Char) : Tight (escapePlain text) := by
  obtain ⟨policy, guards, written⟩ := exists_guards_escapePlain text
  rw [written]
  exact guards.tight

theorem tight_keyword {word : String} (key : word ∈ keywords) : Tight word.toList := by
  have named := isNameChar_of_mem_keyword key
  have filled := List.length_pos_iff.mp (length_keyword_pos key)
  constructor
  · obtain ⟨c, rest, shape⟩ := List.exists_cons_of_ne_nil filled
    exact ⟨c, rest, shape, isBlank_of_isNameChar (named c (by simp [shape]))⟩
  · obtain ⟨front, c, shape⟩ := (List.eq_nil_or_concat word.toList).resolve_left filled
    rw [List.concat_eq_append] at shape
    exact ⟨front, c, shape, isBlank_of_isNameChar (named c (by simp [shape]))⟩

theorem writeOp_goto (target : Label) :
    writeOp (.goto target) = "goto".toList ++ [' '] ++ writeName target.name := by
  have lead : "goto ".toList = "goto".toList ++ [' '] := by decide
  rw [← lead]
  rfl

theorem writeOp_branch (condition : String) (target : Label) :
    writeOp (.branch condition target) =
      "if".toList ++ ([' '] ++ escapeText condition.toList ++ [' '] ++ "goto".toList ++ [' ']) ++
        writeName target.name := by
  have lead : "if ".toList = "if".toList ++ [' '] := by decide
  have inner : " goto ".toList = [' '] ++ "goto".toList ++ [' '] := by decide
  have line : writeOp (.branch condition target) =
      "if ".toList ++ escapeText condition.toList ++ " goto ".toList ++ writeName target.name := rfl
  rw [line, lead, inner]
  simp only [List.append_assoc]

theorem writeOp_ret_some (value : String) :
    writeOp (.ret (some value)) = "return".toList ++ [' '] ++ escapeText value.toList := by
  have lead : "return ".toList = "return".toList ++ [' '] := by decide
  rw [← lead]
  rfl

/-- An operation is written as plain text, as `return` alone, or as a keyword,
a blank and more. -/
theorem writeOp_shape (op : Op) :
    (∃ text : String, op = .plain text ∧ writeOp op = escapePlain text.toList) ∨
      writeOp op = "return".toList ∨
        ∃ word ∈ keywords, ∃ tail, writeOp op = word.toList ++ [' '] ++ tail := by
  cases op with
  | plain text => exact .inl ⟨text, rfl, rfl⟩
  | goto target => exact .inr (.inr ⟨"goto", by decide, _, writeOp_goto target⟩)
  | branch condition target =>
      have line := writeOp_branch condition target
      simp only [List.append_assoc] at line
      rw [← List.append_assoc] at line
      exact .inr (.inr ⟨"if", by decide, _, line⟩)
  | ret value =>
      cases value with
      | none => exact .inr (.inl rfl)
      | some value => exact .inr (.inr ⟨"return", by decide, _, writeOp_ret_some value⟩)

theorem tight_writeOp (op : Op) : Tight (writeOp op) := by
  cases op with
  | plain text => exact tight_escapePlain text.toList
  | goto target =>
      rw [writeOp_goto]
      exact (tight_keyword (by decide)).append _ (tight_writeName target.name)
  | branch condition target =>
      rw [writeOp_branch]
      exact (tight_keyword (by decide)).append _ (tight_writeName target.name)
  | ret value =>
      cases value with
      | none => exact tight_keyword (by decide)
      | some value =>
          rw [writeOp_ret_some]
          exact (tight_keyword (by decide)).append _ (tight_escapeText value.toList)

theorem eq_of_head?_keyword : ∀ word ∈ keywords, ∀ other ∈ keywords,
    word.toList.head? = other.toList.head? → word = other := by
  decide

theorem afterWord?_other {word other : String} (key : word ∈ keywords) (first : other ∈ keywords)
    (differs : word ≠ other) (tail : List Char) :
    afterWord? word (other.toList ++ tail) = none := by
  cases found : afterWord? word (other.toList ++ tail) with
  | none => rfl
  | some rest =>
      have shape := congrArg List.head? (afterWord?_eq_some_iff.mp found).1
      rw [List.head?_append, List.head?_append,
        Option.or_of_isSome (List.isSome_head?.mpr (tight_keyword first).ne_nil),
        Option.or_of_isSome (List.isSome_head?.mpr (tight_keyword key).ne_nil)] at shape
      exact absurd (eq_of_head?_keyword word key other first shape.symm) differs

theorem afterWord?_self (word : String) (tail : List Char) :
    afterWord? word (word.toList ++ [' '] ++ tail) = some ([' '] ++ tail) := by
  apply afterWord?_eq_some_iff.mpr
  rw [List.append_assoc]
  exact ⟨rfl, (by decide : isBlank ' ' = true)⟩

theorem readOp_of_no_word {text : List Char}
    (free : ∀ word ∈ keywords, afterWord? word text = none) :
    readOp text = .plain (resolved text) := by
  simp [readOp, gotoTarget?, branchParts?, returnValue?, free "goto" (by decide),
    free "if" (by decide), free "return" (by decide)]

theorem gotoTarget?_of_gap {gap target : List Char} (spaced : Gap gap) (word : Word target) :
    gotoTarget? ("goto".toList ++ (gap ++ target)) = some target := by
  have found : afterWord? "goto" ("goto".toList ++ (gap ++ target)) = some (gap ++ target) :=
    afterWord?_eq_some_iff.mpr ⟨rfl, spaced.atWordEnd target⟩
  have solid : target.any isBlank = false := by simpa using word.solid
  rw [gotoTarget?, found]
  simp only [trimStart_append spaced.blank word.starts, solid,
    List.isEmpty_eq_false_iff.mpr word.filled, Bool.or_self, Bool.false_eq_true, if_false]

/-- The text is `if` and a `goto` that are parted by a text between blanks. -/
structure Framed (text inner target : List Char) : Prop where
  shape : ∃ tail, Gap tail ∧
    text = "if".toList ++ (inner ++ ("goto".toList ++ (tail ++ target)))
  opened : ∃ c rest, inner = c :: rest ∧ isBlank c = true
  closed : ∃ front c, inner = front ++ [c] ∧ isBlank c = true
  word : Word target

theorem Framed.branchParts?_eq {text inner target : List Char} (framed : Framed text inner target) :
    branchParts? text = (conditionIn? inner).map fun condition => (condition, target) := by
  obtain ⟨⟨tail, spaced, rfl⟩, ⟨c, rest, opened, blank⟩, ⟨front, d, closed, ended⟩, word⟩ := framed
  have found : afterWord? "if" ("if".toList ++ (inner ++ ("goto".toList ++ (tail ++ target)))) =
      some (inner ++ ("goto".toList ++ (tail ++ target))) := by
    refine afterWord?_eq_some_iff.mpr ⟨rfl, ?_⟩
    rw [opened]
    exact blank
  have cutTarget : spanEnd (fun c => !isBlank c) (inner ++ ("goto".toList ++ (tail ++ target))) =
      (inner ++ ("goto".toList ++ tail), target) := by
    obtain ⟨before, e, rfl, blank⟩ := spaced.last
    have solid : ∀ x ∈ target, (!isBlank x) = true := by
      intro x member
      simp [word.solid x member]
    have cut : spanEnd (fun c => !isBlank c) (inner ++ ("goto".toList ++ before) ++ [e] ++ target) =
        (inner ++ ("goto".toList ++ before) ++ [e], target) :=
      spanEnd_of_last (by simp [blank]) solid
    simpa only [List.append_assoc] using cut
  have cutSpace : spanEnd isBlank (inner ++ ("goto".toList ++ tail)) =
      (inner ++ "goto".toList, tail) := by
    have last : "goto".toList = "got".toList ++ ['o'] := by decide
    rw [last, ← List.append_assoc, ← List.append_assoc]
    exact spanEnd_of_last (by decide) spaced.blank
  have cutWord : spanEnd (fun c => !isBlank c) (inner ++ "goto".toList) =
      (inner, "goto".toList) := by
    rw [closed]
    exact spanEnd_of_last (by simp [ended]) (List.all_eq_true.mp (by decide))
  rw [branchParts?, found]
  simp only [cutTarget, cutSpace, cutWord, List.isEmpty_eq_false_iff.mpr word.filled,
    List.isEmpty_eq_false_iff.mpr spaced.filled]
  rfl

theorem conditionIn?_of_tight {inner : List Char} (tight : Tight (trim inner)) :
    conditionIn? inner = some (trim inner) := by
  obtain ⟨c, rest, shape, -⟩ := tight.first
  rw [conditionIn?, shape]

theorem branchParts?_spaced {condition target : List Char} (tight : Tight condition)
    (word : Word target) :
    branchParts?
        ("if".toList ++ ([' '] ++ condition ++ [' '] ++ "goto".toList ++ [' ']) ++ target) =
      some (condition, target) := by
  have trimmed : trim ([' '] ++ condition ++ [' ']) = condition :=
    tight.trim_pad isBlank_space isBlank_space
  have framed : Framed
      ("if".toList ++ ([' '] ++ condition ++ [' '] ++ "goto".toList ++ [' ']) ++ target)
      ([' '] ++ condition ++ [' ']) target := by
    refine ⟨⟨[' '], gap_singleton (by decide), by simp only [List.append_assoc]⟩, ?_, ?_, word⟩
    · exact ⟨' ', condition ++ [' '], rfl, by decide⟩
    · exact ⟨[' '] ++ condition, ' ', rfl, by decide⟩
  rw [framed.branchParts?_eq, conditionIn?_of_tight (trimmed.symm ▸ tight), trimmed,
    Option.map_some]

theorem returnValue?_spaced {value : List Char} (tight : Tight value) :
    returnValue? ("return".toList ++ [' '] ++ value) = some (some value) := by
  have trimmed : trimStart ([' '] ++ value) = value := trimStart_append isBlank_space tight.starts
  rw [returnValue?, afterWord?_self, Option.map_some, trimmed]
  rfl

theorem readOp_writeOp (op : Op) : readOp (writeOp op) = op := by
  cases op with
  | plain text =>
      show readOp (escapePlain text.toList) = .plain text
      rw [readOp_of_no_word fun _ => afterWord?_escapePlain text.toList, resolved_escapePlain]
  | goto target =>
      rw [writeOp_goto, List.append_assoc, readOp,
        gotoTarget?_of_gap (gap_singleton (by decide)) (word_writeName _)]
      simp only [resolved_writeName]
  | branch condition target =>
      have other : gotoTarget? (writeOp (.branch condition target)) = none := by
        rw [writeOp_branch, List.append_assoc, gotoTarget?,
          afterWord?_other (by decide) (by decide) (by decide)]
      rw [readOp, other, writeOp_branch, branchParts?_spaced (tight_escapeText _) (word_writeName _)]
      simp only [resolved_writeName, resolved_escapeText]
  | ret value =>
      cases value with
      | none => decide
      | some value =>
          have free : ∀ word ∈ keywords, word ≠ "return" →
              afterWord? word ("return".toList ++ [' '] ++ escapeText value.toList) = none := by
            intro word key differs
            rw [List.append_assoc]
            exact afterWord?_other key (by decide) differs _
          rw [writeOp_ret_some, readOp, gotoTarget?, free "goto" (by decide) (by decide),
            branchParts?, free "if" (by decide) (by decide),
            returnValue?_spaced (tight_escapeText _)]
          simp only [Option.map_some, resolved_escapeText]

/-! Lines of instructions. -/

/-- The line of an instruction without the blanks at its ends. -/
def spokenLine (i : Instruction) : List Char :=
  match i.label with
  | some label => writeName label.name ++ [':', ' '] ++ writeOp i.op
  | none => writeOp i.op

theorem tight_spokenLine (i : Instruction) : Tight (spokenLine i) := by
  unfold spokenLine
  split
  · exact (tight_writeName _).append _ (tight_writeOp i.op)
  · exact tight_writeOp i.op

theorem trim_writeInstruction (i : Instruction) : trim (writeInstruction i) = spokenLine i := by
  obtain ⟨label, op⟩ := i
  cases label with
  | none =>
      have padded : trim ("    ".toList ++ writeOp op ++ []) = writeOp op :=
        (tight_writeOp op).trim_pad (List.all_eq_true.mp (by decide)) (by simp)
      rwa [List.append_nil] at padded
  | some label =>
      have line : writeInstruction ⟨some label, op⟩ = spokenLine ⟨some label, op⟩ := by
        have lead : ": ".toList = [':', ' '] := by decide
        show writeName label.name ++ ": ".toList ++ writeOp op = _
        rw [lead]
        rfl
      rw [line]
      exact (tight_spokenLine _).trim_eq

/-- Whether the written line of an instruction starts with a label that the
instruction has not got. -/
def isMislabelled (i : Instruction) : Bool :=
  match i.label, i.op with
  | none, .plain text => isFragile text.toList
  | _, _ => false

theorem labelParts?_of_blank {front : List Char} {gap : Char} (clear : ':' ∉ front)
    (blank : isBlank gap = true) (back : List Char) :
    labelParts? (front ++ gap :: back) = none := by
  cases found : labelParts? (front ++ gap :: back) with
  | none => rfl
  | some parts =>
      obtain ⟨shape, _, written, _⟩ := labelParts?_eq_some_iff.mp found
      have colon : gap ≠ ':' := ne_of_class blank (by decide)
      obtain ⟨more, same, tail⟩ | ⟨more, same, tail⟩ := List.append_eq_append_iff.mp shape
      · cases more with
        | nil => exact absurd (List.cons.inj tail).1 colon
        | cons x more =>
            have mark := isNameMark_of_isWrittenName _ _ written x (by simp [same])
            rw [(List.cons.inj tail).1, isBlank_of_isNameMark mark] at blank
            cases blank
      · cases more with
        | nil => exact absurd (List.cons.inj tail).1.symm colon
        | cons x more =>
            apply absurd _ clear
            rw [(List.cons.inj tail).1, same]
            simp

theorem read_keyword_line {word : String} (key : word ∈ keywords) (tail : List Char) :
    BodyLine.read (word.toList ++ [' '] ++ tail) =
      .instruction none (readOp (word.toList ++ [' '] ++ tail)) := by
  have named := isNameChar_of_mem_keyword key
  apply read_of_no_label
  · intro brace
    have member : ' ' ∈ word.toList ++ [' '] ++ tail := by simp
    rw [brace] at member
    exact absurd member (by decide)
  · rw [List.append_assoc]
    apply labelParts?_of_blank _ (by decide)
    intro colon
    exact absurd (named ':' colon) (by decide)

theorem labelParts?_labelled (label : Label) (op : Op) :
    labelParts? (spokenLine ⟨some label, op⟩) = some (writeName label.name, ' ' :: writeOp op) := by
  apply labelParts?_eq_some_iff.mpr
  refine ⟨by simp [spokenLine], (tight_writeName _).ne_nil, isWrittenName_writeName _, ?_⟩
  show isBlank ' ' = true
  decide

theorem read_labelled (label : Label) (op : Op) :
    BodyLine.read (spokenLine ⟨some label, op⟩) = .instruction (some label) op := by
  have trimmed : trimStart ([' '] ++ writeOp op) = writeOp op :=
    trimStart_append isBlank_space (tight_writeOp op).starts
  rw [List.singleton_append] at trimmed
  rw [read_label_first (labelParts?_labelled label op) trimmed (tight_writeOp op).ne_nil,
    readOp_writeOp, resolved_writeName]

theorem read_spokenLine {i : Instruction} (fine : isMislabelled i = false) :
    BodyLine.read (spokenLine i) = .instruction i.label i.op := by
  obtain ⟨label, op⟩ := i
  cases label with
  | some label => exact read_labelled label op
  | none =>
      show BodyLine.read (writeOp op) = .instruction none op
      have unlabelled : BodyLine.read (writeOp op) = .instruction none (readOp (writeOp op)) := by
        obtain ⟨text, rfl, line⟩ | line | ⟨word, key, tail, line⟩ := writeOp_shape op
        · have sound : startsWithLabel (escapePlain text.toList) = false := by
            rw [startsWithLabel_escapePlain]
            exact fine
          have free : labelParts? (escapePlain text.toList) = none := by
            cases found : labelParts? (escapePlain text.toList) with
            | none => rfl
            | some parts =>
                rw [startsWithLabel_iff_labelParts?.mpr ⟨_, _, found⟩] at sound
                cases sound
          exact read_of_no_label (escapePlain_ne_brace _) free
        · rw [line]
          decide
        · rw [line]
          exact read_keyword_line key tail
      rw [unlabelled, readOp_writeOp]

/-- A mislabelled line is read as a label, or as an instruction that carries one. -/
theorem read_mislabelled {i : Instruction} (bad : isMislabelled i = true) :
    i.label = none ∧ ∃ label, BodyLine.read (spokenLine i) = .label label ∨
      ∃ op, BodyLine.read (spokenLine i) = .instruction (some label) op := by
  obtain ⟨label, op⟩ := i
  unfold isMislabelled at bad
  split at bad
  · rename_i text unlabelled plain
    simp only at unlabelled plain
    subst unlabelled plain
    refine ⟨rfl, ?_⟩
    rw [← startsWithLabel_escapePlain] at bad
    obtain ⟨name, rest, found⟩ := startsWithLabel_iff_labelParts?.mp bad
    refine ⟨⟨resolved name⟩, ?_⟩
    cases behind : trimStart rest with
    | nil => exact .inl (read_label_alone found behind)
    | cons c text => exact .inr ⟨_, read_label_first found behind (by simp)⟩
  · cases bad

/-- No written line is a comment. -/
theorem not_comment_spokenLine (i : Instruction) : ¬ ['/', '/'] <+: spokenLine i := by
  obtain ⟨label, op⟩ := i
  cases label with
  | some label =>
      show ¬ _ <+: writeName label.name ++ [':', ' '] ++ writeOp op
      rw [List.append_assoc]
      exact not_comment_of_marks (tight_writeName _).ne_nil
        (fun _ => isNameMark_of_mem_writeName) _
  | none =>
      show ¬ _ <+: writeOp op
      obtain ⟨text, rfl, line⟩ | line | ⟨word, key, tail, line⟩ := writeOp_shape op
      · exact not_comment_escapePlain text.toList
      · rw [line]
        decide
      · rw [line, List.append_assoc]
        apply not_comment_of_marks (tight_keyword key).ne_nil
        intro x member
        simp [isNameMark, isNameChar_of_mem_keyword key x member]

/-! Headers. -/

theorem trim_cons_blank (cs : List Char) : trim (' ' :: cs) = trim cs := by
  have lead : trimStart (' ' :: cs) = trimStart cs := List.dropWhile_cons_of_pos (by decide)
  rw [trim, trim, lead]

theorem map_trim_splitOn_blank (cs : List Char) :
    ((' ' :: cs).splitOn ',').map trim = (cs.splitOn ',').map trim := by
  rw [List.splitOn_cons_eq_if_modifyHead, if_neg (by decide)]
  cases pieces : cs.splitOn ',' with
  | nil => rfl
  | cons first others => simp [trim_cons_blank]

theorem readParams_cons {name : List Char} (tight : Tight name) (clear : ',' ∉ name)
    (text : List Char) :
    readParams (name ++ ',' :: ' ' :: text) = resolved name :: readParams text := by
  rw [readParams, List.splitOn_append_cons_self_of_not_mem clear, List.map_cons,
    map_trim_splitOn_blank, tight.trim_eq, List.filter_cons_of_pos, List.map_cons]
  · rfl
  · simp [tight.ne_nil]

theorem readParams_single {name : List Char} (tight : Tight name) (clear : ',' ∉ name) :
    readParams name = [resolved name] := by
  rw [readParams, List.splitOn_eq_singleton clear]
  simp [tight.trim_eq, tight.ne_nil]

theorem not_mem_writeName {c : Char} (outside : isNameMark c = false) (name : String) :
    c ∉ writeName name := by
  intro member
  rw [isNameMark_of_mem_writeName member] at outside
  cases outside

theorem readParams_written (params : List String) :
    readParams ([',', ' '].intercalate (params.map writeName)) = params := by
  induction params with
  | nil => decide
  | cons name others ih =>
      have tight := tight_writeName name
      have clear := not_mem_writeName (by decide : isNameMark ',' = false) name
      cases others with
      | nil => simp [readParams_single tight clear, resolved_writeName]
      | cons second others =>
          rw [List.map_cons, List.intercalate_cons_of_ne_nil (by simp), List.append_assoc]
          simp only [List.cons_append, List.nil_append]
          rw [readParams_cons tight clear, ih, resolved_writeName]

theorem not_mem_params {c : Char} (outside : isNameMark c = false) (comma : c ≠ ',')
    (blank : c ≠ ' ') (params : List String) :
    c ∉ [',', ' '].intercalate (params.map writeName) := by
  induction params with
  | nil => exact List.not_mem_nil
  | cons name others ih =>
      have first := not_mem_writeName outside name
      cases others with
      | nil =>
          rw [List.map_singleton, List.intercalate_singleton]
          exact first
      | cons second others =>
          rw [List.map_cons, List.intercalate_cons_of_ne_nil (by simp), List.append_assoc,
            List.mem_append, List.mem_append]
          simp only [first, ih, comma, blank, List.mem_cons, List.not_mem_nil, or_self,
            not_false_eq_true]

theorem writeHeader_eq (b : Body) :
    writeHeader b = "method".toList ++ [' '] ++ (writeName b.name ++
      ('(' :: [',', ' '].intercalate (b.params.map writeName) ++ [')', ' ']) ++ ['{']) := by
  have lead : "method ".toList = "method".toList ++ [' '] := by decide
  have comma : ", ".toList = [',', ' '] := by decide
  have tail : ") \x7b".toList = [')', ' '] ++ ['{'] := by decide
  have line : writeHeader b = "method ".toList ++ writeName b.name ++ '(' ::
      (", ".toList.intercalate (b.params.map writeName) ++ ") \x7b".toList) := rfl
  rw [line, lead, comma, tail]
  simp only [List.append_assoc, List.cons_append, List.nil_append]

theorem tight_brace : Tight ['{'] := ⟨⟨'{', [], rfl, by decide⟩, ⟨[], '{', rfl, by decide⟩⟩

theorem tight_writeHeader (b : Body) : Tight (writeHeader b) := by
  have tight : Tight "method".toList :=
    ⟨⟨'m', "ethod".toList, by decide, by decide⟩, ⟨"metho".toList, 'd', by decide, by decide⟩⟩
  rw [writeHeader_eq]
  exact tight.append _ ((tight_writeName b.name).append _ tight_brace)

theorem headerShape_writeHeader (b : Body) :
    HeaderShape (writeHeader b) (writeName b.name)
      ([',', ' '].intercalate (b.params.map writeName)) := by
  have named : ∀ c ∈ writeName b.name, isBlank c = false ∧ c ≠ '(' := by
    intro c member
    have mark := isNameMark_of_mem_writeName member
    exact ⟨isBlank_of_isNameMark mark, ne_of_class mark (by decide)⟩
  have closed : ')' ∉ [',', ' '].intercalate (b.params.map writeName) :=
    not_mem_params (by decide) (by decide) (by decide) b.params
  have shape := @HeaderShape.mk (writeName b.name) _ [' '] [] [' '] (by decide) isBlank_space
    (by simp) isBlank_space (tight_writeName b.name).ne_nil named closed
  rw [writeHeader_eq]
  simpa only [List.append_assoc, List.cons_append, List.nil_append] using shape

theorem read?_writeHeader (b : Body) :
    Header.read? (writeHeader b) = some ⟨b.name, b.params⟩ := by
  refine read?_eq_some_iff.mpr ⟨_, _, headerShape_writeHeader b, ?_⟩
  rw [resolved_writeName, readParams_written]

end FlowGraph.Listing
