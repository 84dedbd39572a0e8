import FlowGraph.Proofs.ConditionalJumps
import Mathlib.Computability.Language

/-! The lines that a reader tells from plain text, as patterns. A pattern is a set of
texts, put together from classes of characters by choice, sequence and repetition.
Reading scans a line once and takes what it finds, and on a line of text each scan
succeeds exactly if the line is in the pattern. -/
namespace FlowGraph.Listing
open FlowGraph.Text
open scoped Computability

/-! Patterns. -/

/-- One character of a class. -/
def oneOf (inClass : Char → Prop) : Language Char := {text | ∃ c, text = [c] ∧ inClass c}

/-- A pattern once or more often. -/
def repeated (l : Language Char) : Language Char := l * l∗

/-- The class `[A-Za-z0-9_.$]`. -/
def NameClass (c : Char) : Prop :=
  ('A' ≤ c ∧ c ≤ 'Z') ∨ ('a' ≤ c ∧ c ≤ 'z') ∨ ('0' ≤ c ∧ c ≤ '9') ∨ c = '_' ∨ c = '.' ∨ c = '$'

/-- The class `[0-9a-fA-F]`. -/
def HexClass (c : Char) : Prop :=
  ('0' ≤ c ∧ c ≤ '9') ∨ ('a' ≤ c ∧ c ≤ 'f') ∨ ('A' ≤ c ∧ c ≤ 'F')

def blankChar : Language Char := oneOf (isBlank · = true)

def solidChar : Language Char := oneOf (isBlank · = false)

/-- Any character but a line break. -/
def lineChar : Language Char := oneOf (· ≠ '\n')

/-- One character of a name, or a group of any number of digits. -/
def namePiece : Language Char :=
  oneOf NameClass + {['\\', '{']} * ((oneOf HexClass)∗ * {['}']})

/-- A name and a colon, and then nothing more or blanks and any text. -/
def labelPattern : Language Char :=
  repeated namePiece * ({[':']} * (1 + repeated blankChar * lineChar∗))

/-- The word `goto` and one more word. -/
def gotoPattern : Language Char := {"goto".toList} * (repeated blankChar * repeated solidChar)

/-- The word `if` and any text, and then a `goto`. -/
def branchPattern : Language Char :=
  {"if".toList} * (repeated blankChar * (repeated lineChar * (repeated blankChar * gotoPattern)))

/-- The word `return`, alone or with any text. -/
def returnPattern : Language Char := {"return".toList} * (1 + repeated blankChar * repeated lineChar)

/-! Texts in a pattern. -/

theorem mem_oneOf {inClass : Char → Prop} {text : List Char} :
    text ∈ oneOf inClass ↔ ∃ c, text = [c] ∧ inClass c :=
  Iff.rfl

theorem mem_star_oneOf {inClass : Char → Prop} {text : List Char} :
    text ∈ (oneOf inClass)∗ ↔ ∀ c ∈ text, inClass c := by
  constructor
  · rintro ⟨parts, rfl, each⟩ c member
    obtain ⟨part, among, inside⟩ := List.mem_flatten.mp member
    obtain ⟨d, rfl, classed⟩ := each part among
    rwa [List.mem_singleton.mp inside]
  · intro classed
    refine ⟨text.map ([·]), by rw [← List.flatMap_def, List.flatMap_singleton'], ?_⟩
    intro part among
    obtain ⟨c, member, rfl⟩ := List.mem_map.mp among
    exact ⟨c, rfl, classed c member⟩

theorem mem_repeated {l : Language Char} (filled : [] ∉ l) {text : List Char} :
    text ∈ repeated l ↔ text ≠ [] ∧ text ∈ l∗ := by
  constructor
  · rintro ⟨part, first, rest, ⟨parts, rfl, others⟩, rfl⟩
    refine ⟨?_, part :: parts, rfl, List.forall_mem_cons.mpr ⟨first, others⟩⟩
    intro empty
    rw [(List.append_eq_nil_iff.mp empty).1] at first
    exact filled first
  · rintro ⟨nonempty, parts, rfl, each⟩
    cases parts with
    | nil => exact absurd rfl nonempty
    | cons part parts =>
        obtain ⟨first, others⟩ := List.forall_mem_cons.mp each
        exact Language.append_mem_mul first (Language.join_mem_kstar others)

theorem mem_repeated_oneOf {inClass : Char → Prop} {text : List Char} :
    text ∈ repeated (oneOf inClass) ↔ text ≠ [] ∧ ∀ c ∈ text, inClass c := by
  have filled : [] ∉ oneOf inClass := by
    rintro ⟨c, empty, -⟩
    cases empty
  rw [mem_repeated filled, mem_star_oneOf]

theorem mem_repeated_blankChar {text : List Char} : text ∈ repeated blankChar ↔ Gap text := by
  rw [blankChar, mem_repeated_oneOf]
  exact ⟨fun ⟨filled, blanks⟩ => ⟨filled, blanks⟩, fun gap => ⟨gap.filled, gap.blank⟩⟩

theorem mem_repeated_solidChar {text : List Char} : text ∈ repeated solidChar ↔ Word text := by
  rw [solidChar, mem_repeated_oneOf]
  exact ⟨fun ⟨filled, solids⟩ => ⟨filled, solids⟩, fun word => ⟨word.filled, word.solid⟩⟩

theorem mem_repeated_lineChar {text : List Char} :
    text ∈ repeated lineChar ↔ text ≠ [] ∧ '\n' ∉ text := by
  rw [lineChar, mem_repeated_oneOf]
  exact and_congr_right' List.forall_mem_ne'

theorem mem_word_mul {word text : List Char} {l : Language Char} :
    text ∈ {word} * l ↔ ∃ rest ∈ l, word ++ rest = text := by
  rw [Language.mem_mul]
  exact ⟨fun ⟨_, same, rest⟩ => same ▸ rest, fun rest => ⟨word, rfl, rest⟩⟩

/-! Labels. -/

theorem nameClass_iff {c : Char} : NameClass c ↔ isNameChar c = true := by
  simp only [isNameChar_eq, Bool.or_eq_true, Bool.and_eq_true, decide_eq_true_eq, beq_iff_eq,
    or_assoc]
  exact Iff.rfl

theorem hexClass_iff {c : Char} : HexClass c ↔ isHexDigit c = true := by
  have digit : c.isDigit = true ↔ '0' ≤ c ∧ c ≤ '9' := by
    rw [Char.isDigit, Bool.and_eq_true, decide_eq_true_eq, decide_eq_true_eq]
    exact Iff.rfl
  rw [HexClass, isHexDigit, hexValue?, ← digit]
  split
  · rename_i decimal
    exact iff_of_true (.inl decimal) rfl
  · rename_i other
    rw [or_iff_right other]
    split
    · rename_i lower
      exact iff_of_true (.inl lower) rfl
    · rename_i other
      rw [or_iff_right other]
      split
      · rename_i upper
        exact iff_of_true upper rfl
      · rename_i other
        exact iff_of_false other Bool.false_ne_true

theorem mem_namePiece {text : List Char} :
    text ∈ namePiece ↔ (∃ c, text = [c] ∧ isNameChar c = true) ∨
      ∃ digits, text = '\\' :: '{' :: (digits ++ ['}']) ∧ ∀ d ∈ digits, isHexDigit d = true := by
  rw [namePiece, Language.mem_add, mem_word_mul]
  apply or_congr
  · simp only [mem_oneOf, nameClass_iff]
  · simp only [← hexClass_iff, ← mem_star_oneOf]
    constructor
    · rintro ⟨_, ⟨digits, hex, _, rfl, rfl⟩, rfl⟩
      exact ⟨digits, rfl, hex⟩
    · rintro ⟨digits, rfl, hex⟩
      exact ⟨digits ++ ['}'], Language.append_mem_mul hex rfl, rfl⟩

theorem writtenName_append {piece rest : List Char} (inside : piece ∈ namePiece)
    (written : WrittenName rest) : WrittenName (piece ++ rest) := by
  obtain ⟨c, rfl, named⟩ | ⟨digits, rfl, hex⟩ := mem_namePiece.mp inside
  · exact .char named written
  · have longer : WrittenName ('\\' :: '{' :: (digits ++ '}' :: rest)) := .group hex written
    simpa using longer

theorem mem_star_namePiece {text : List Char} : text ∈ namePiece∗ ↔ WrittenName text := by
  constructor
  · rintro ⟨parts, rfl, each⟩
    induction parts with
    | nil => exact .nil
    | cons part parts ih =>
        obtain ⟨first, others⟩ := List.forall_mem_cons.mp each
        exact writtenName_append first (ih others)
  · intro written
    induction written with
    | nil => exact Language.nil_mem_kstar _
    | @char c rest named _ ih =>
        obtain ⟨parts, rfl, each⟩ := ih
        have piece : [c] ∈ namePiece := mem_namePiece.mpr (.inl ⟨c, rfl, named⟩)
        exact ⟨[c] :: parts, rfl, List.forall_mem_cons.mpr ⟨piece, each⟩⟩
    | @group digits rest hex _ ih =>
        obtain ⟨parts, rfl, each⟩ := ih
        have piece : '\\' :: '{' :: (digits ++ ['}']) ∈ namePiece :=
          mem_namePiece.mpr (.inr ⟨digits, rfl, hex⟩)
        exact ⟨_ :: parts, by simp, List.forall_mem_cons.mpr ⟨piece, each⟩⟩

theorem mem_repeated_namePiece {text : List Char} :
    text ∈ repeated namePiece ↔ text ≠ [] ∧ WrittenName text := by
  have filled : [] ∉ namePiece := by
    rw [mem_namePiece]
    rintro (⟨c, empty, -⟩ | ⟨digits, empty, -⟩)
    · cases empty
    · cases empty
  rw [mem_repeated filled, mem_star_namePiece]

/-- What may follow the colon of a label on its line. -/
theorem mem_afterColon {rest : List Char} (unbroken : '\n' ∉ rest) :
    rest ∈ 1 + repeated blankChar * lineChar∗ ↔
      rest = [] ∨ ∃ c tail, rest = c :: tail ∧ isBlank c = true := by
  rw [Language.mem_add, Language.mem_one]
  apply or_congr_right
  constructor
  · rintro ⟨blanks, more, tail, -, rfl⟩
    obtain ⟨c, others, rfl, blank⟩ := (mem_repeated_blankChar.mp more).first
    exact ⟨c, others ++ tail, rfl, blank⟩
  · rintro ⟨c, tail, rfl, blank⟩
    have gap : [c] ∈ repeated blankChar := mem_repeated_blankChar.mpr (gap_singleton blank)
    have clear : tail ∈ lineChar∗ :=
      mem_star_oneOf.mpr (List.forall_mem_ne'.mpr fun broken => unbroken (.tail c broken))
    exact Language.append_mem_mul gap clear

theorem mem_labelPattern {line : List Char} (unbroken : '\n' ∉ line) :
    line ∈ labelPattern ↔ ∃ name rest, LabelShape line name rest := by
  have clear : ∀ {name rest}, name ++ ':' :: rest = line → '\n' ∉ rest := by
    rintro name rest rfl broken
    exact unbroken (List.mem_append_right name (.tail ':' broken))
  constructor
  · rintro ⟨name, pieces, _, ⟨_, rfl, rest, ending, rfl⟩, shape⟩
    obtain ⟨named, written⟩ := mem_repeated_namePiece.mp pieces
    exact ⟨name, rest, shape.symm, named, written, (mem_afterColon (clear shape)).mp ending⟩
  · rintro ⟨name, rest, shape, named, written, ended⟩
    have ending := (mem_afterColon (clear shape.symm)).mpr ended
    rw [shape]
    exact Language.append_mem_mul (mem_repeated_namePiece.mpr ⟨named, written⟩)
      (mem_word_mul.mpr ⟨rest, ending, rfl⟩)

theorem isSome_labelParts?_iff {line : List Char} (unbroken : '\n' ∉ line) :
    (labelParts? line).isSome = true ↔ line ∈ labelPattern := by
  simp only [Option.isSome_iff_exists, Prod.exists, labelParts?_iff_shape,
    mem_labelPattern unbroken]

/-! Operations. -/

theorem mem_gotoPattern {text : List Char} :
    text ∈ gotoPattern ↔
      ∃ gap target, Gap gap ∧ Word target ∧ text = "goto".toList ++ (gap ++ target) := by
  rw [gotoPattern, mem_word_mul]
  constructor
  · rintro ⟨_, ⟨gap, blanks, target, solids, rfl⟩, rfl⟩
    exact ⟨gap, target, mem_repeated_blankChar.mp blanks, mem_repeated_solidChar.mp solids, rfl⟩
  · rintro ⟨gap, target, spaced, word, rfl⟩
    exact ⟨_, Language.append_mem_mul (mem_repeated_blankChar.mpr spaced)
      (mem_repeated_solidChar.mpr word), rfl⟩

theorem isSome_gotoTarget?_iff {text : List Char} :
    (gotoTarget? text).isSome = true ↔ text ∈ gotoPattern := by
  rw [mem_gotoPattern]
  constructor
  · intro found
    unfold gotoTarget? at found
    split at found
    · cases found
    · rename_i rest first
      obtain ⟨rfl, ended⟩ := afterWord?_eq_some_iff.mp first
      obtain ⟨gap, cut, blank⟩ := exists_blanks rest
      dsimp only at found
      split at found
      · cases found
      · rename_i last
        obtain ⟨filled, solid⟩ : trimStart rest ≠ [] ∧ ∀ c ∈ trimStart rest, isBlank c = false := by
          simpa using last
        refine ⟨gap, trimStart rest, ⟨?_, blank⟩, ⟨filled, solid⟩, by rw [← cut]⟩
        -- Without a gap the first word would go on.
        rintro rfl
        obtain ⟨c, more, shape⟩ := List.exists_cons_of_ne_nil filled
        rw [cut, List.nil_append, shape, atWordEnd, solid c (by simp [shape])] at ended
        cases ended
  · rintro ⟨gap, target, spaced, word, rfl⟩
    rw [gotoTarget?_of_gap spaced word, Option.isSome_some]

theorem mem_branchPattern {text : List Char} :
    text ∈ branchPattern ↔ ∃ lead condition middle tail target, Gap lead ∧ condition ≠ [] ∧
      '\n' ∉ condition ∧ Gap middle ∧ Gap tail ∧ Word target ∧
        text =
          "if".toList ++ (lead ++ (condition ++ (middle ++ ("goto".toList ++ (tail ++ target))))) := by
  rw [branchPattern, mem_word_mul]
  constructor
  · rintro ⟨_, ⟨lead, led, _, ⟨condition, within, _, ⟨middle, parted, _, goes, rfl⟩, rfl⟩, rfl⟩, rfl⟩
    obtain ⟨filled, unbroken⟩ := mem_repeated_lineChar.mp within
    obtain ⟨tail, target, spaced, word, rfl⟩ := mem_gotoPattern.mp goes
    exact ⟨lead, condition, middle, tail, target, mem_repeated_blankChar.mp led, filled, unbroken,
      mem_repeated_blankChar.mp parted, spaced, word, rfl⟩
  · rintro ⟨lead, condition, middle, tail, target, led, filled, unbroken, parted, spaced, word, rfl⟩
    have goes := mem_gotoPattern.mpr ⟨tail, target, spaced, word, rfl⟩
    have within := mem_repeated_lineChar.mpr ⟨filled, unbroken⟩
    exact ⟨_, Language.append_mem_mul (mem_repeated_blankChar.mpr led)
      (Language.append_mem_mul within
        (Language.append_mem_mul (mem_repeated_blankChar.mpr parted) goes)), rfl⟩

/-- Three characters are enough for a condition and a blank on each side of it. -/
theorem isSome_conditionIn? {lead condition middle : List Char} (led : lead ≠ [])
    (filled : condition ≠ []) (parted : middle ≠ []) :
    (conditionIn? (lead ++ (condition ++ middle))).isSome = true := by
  obtain ⟨blank, -⟩ | ⟨-, -, -, -, -, tight⟩ := trim_cases (lead ++ (condition ++ middle))
  · obtain ⟨before, last, rfl⟩ := (List.eq_nil_or_concat middle).resolve_left parted
    obtain ⟨front, hole, shape⟩ := (List.eq_nil_or_concat (condition ++ before)).resolve_left
      (List.append_ne_nil_of_left_ne_nil filled before)
    have cut : lead ++ (condition ++ before.concat last) = lead ++ front ++ [hole, last] := by
      rw [List.concat_eq_append, ← List.append_assoc condition, shape]
      simp
    rw [(conditionIn?_blank_iff blank).mpr
      ⟨lead ++ front, hole, last, cut, List.append_ne_nil_of_left_ne_nil led front, rfl⟩,
      Option.isSome_some]
  · rw [conditionIn?_of_tight tight, Option.isSome_some]

theorem isSome_branchParts?_iff_mem {text : List Char} (unbroken : '\n' ∉ text) :
    (branchParts? text).isSome = true ↔ text ∈ branchPattern := by
  rw [mem_branchPattern]
  constructor
  · intro found
    obtain ⟨b, rfl⟩ | ⟨b, rfl⟩ := isSome_branchParts?_iff.mp found
    · have clear : '\n' ∉ b.condition := by
        intro broken
        apply unbroken
        simp [SpelledBranch.text, broken]
      exact ⟨b.lead, b.condition, b.middle, b.tail, b.target, b.led, b.tight.ne_nil, clear,
        b.parted, b.spaced, b.word, rfl⟩
    · have clear : '\n' ∉ [b.blank] := by
        intro broken
        have within : b.blank ∈ b.text := by simp [HollowBranch.text]
        rw [← List.mem_singleton.mp broken] at within
        exact unbroken within
      exact ⟨b.lead, [b.blank], [b.last], b.tail, b.target, b.led, List.cons_ne_nil _ _, clear,
        gap_singleton b.isBlank_last, b.spaced, b.word, rfl⟩
  · rintro ⟨lead, condition, middle, tail, target, led, filled, -, parted, spaced, word, rfl⟩
    rw [(Framed.of_gaps led condition parted spaced word).branchParts?_eq, Option.isSome_map]
    exact isSome_conditionIn? led.filled filled parted.filled

theorem afterWord?_of_mem_returnPattern {text : List Char} (ret : text ∈ returnPattern) :
    ∃ rest, afterWord? "return" text = some rest := by
  obtain ⟨rest, ending, rfl⟩ := mem_word_mul.mp ret
  refine ⟨rest, afterWord?_eq_some_iff.mpr ⟨rfl, ?_⟩⟩
  obtain rfl | ⟨gap, blanks, value, -, rfl⟩ := ending
  · rfl
  · exact (mem_repeated_blankChar.mp blanks).atWordEnd value

/-- A line does not end with the blank after `return`, so that there is a value. -/
theorem isSome_returnValue?_iff {text : List Char} (tight : Tight text) (unbroken : '\n' ∉ text) :
    (returnValue? text).isSome = true ↔ text ∈ returnPattern := by
  rw [returnValue?, Option.isSome_map, Option.isSome_iff_exists, returnPattern, mem_word_mul]
  constructor
  · rintro ⟨rest, first⟩
    obtain ⟨rfl, ended⟩ := afterWord?_eq_some_iff.mp first
    refine ⟨rest, ?_, rfl⟩
    obtain rfl | ⟨c, tail, rfl, blank⟩ := atWordEnd_iff.mp ended
    · exact .inl rfl
    · have filled : tail ≠ [] := by
        rintro rfl
        have solid := (ends_append (List.cons_ne_nil c []) _).mp tight.ends
        simp [Ends, blank] at solid
      have clear : '\n' ∉ tail := fun broken => unbroken (List.mem_append_right _ (.tail c broken))
      have gap : [c] ∈ repeated blankChar := mem_repeated_blankChar.mpr (gap_singleton blank)
      exact .inr (Language.append_mem_mul gap (mem_repeated_lineChar.mpr ⟨filled, clear⟩))
  · intro ret
    exact afterWord?_of_mem_returnPattern (mem_word_mul.mpr ret)

/-! Plain lines. -/

theorem readOp_eq_plain_iff {text : List Char} :
    readOp text = .plain (resolved text) ↔
      gotoTarget? text = none ∧ branchParts? text = none ∧ returnValue? text = none := by
  unfold readOp
  cases gotoTarget? text with
  | some target => simp
  | none =>
      cases branchParts? text with
      | some parts => simp
      | none => cases returnValue? text <;> simp

theorem read_eq_unlabelled_iff {line : List Char} {op : Op} :
    BodyLine.read line = .instruction none op ↔
      line ≠ ['}'] ∧ labelParts? line = none ∧ readOp line = op := by
  constructor
  · intro read
    generalize said : BodyLine.instruction none op = other at read
    cases read_eq_iff_tells.mp read with
    | close => cases said
    | label => cases said
    | labelled => cases said
    | unlabelled brace free =>
        cases said
        exact ⟨brace, labelParts?_eq_none_iff.mpr free, rfl⟩
  · rintro ⟨brace, free, rfl⟩
    exact read_of_no_label brace free

/-- A line is a plain instruction without a label if it is in none of the patterns. -/
theorem read_eq_plain_iff {line : List Char} (tight : Tight line) (unbroken : '\n' ∉ line) :
    BodyLine.read line = .instruction none (.plain (resolved line)) ↔
      line ≠ ['}'] ∧ line ∉ labelPattern ∧ line ∉ gotoPattern ∧ line ∉ branchPattern ∧
        line ∉ returnPattern := by
  rw [read_eq_unlabelled_iff, readOp_eq_plain_iff]
  simp only [← Option.not_isSome_iff_eq_none, isSome_labelParts?_iff unbroken,
    isSome_gotoTarget?_iff, isSome_branchParts?_iff_mem unbroken,
    isSome_returnValue?_iff tight unbroken]

end FlowGraph.Listing
