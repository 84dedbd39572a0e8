import FlowGraph.Proofs.LinePatterns
import FlowGraph.Proofs.Renumbering

/-! The guard of the writer and the reader that it guards against. The writer asks of a
text whether it would be read as something else, with scans of its own. For a label they
are exact. For the other patterns they stop more lines than need be, but no line of a
pattern passes. So a reader adds every line that passes to its method as it is. -/
namespace FlowGraph.Listing
open FlowGraph.Text

theorem startsWithLabel_iff_mem {line : List Char} (unbroken : '\n' ∉ line) :
    startsWithLabel line = true ↔ line ∈ labelPattern := by
  simp only [startsWithLabel_iff_labelParts?, labelParts?_iff_shape, mem_labelPattern unbroken]

theorem isMistaken_of_word {line rest : List Char} {word : String} (key : word ∈ keywords)
    (first : afterWord? word line = some rest) : isMistaken line = true :=
  isMistaken_iff.mpr (.inr (.inr (.inl ⟨word, key, rest, first⟩)))

theorem isMistaken_of_gap {word : String} (key : word ∈ keywords) {gap : List Char}
    (spaced : Gap gap) (rest : List Char) : isMistaken (word.toList ++ (gap ++ rest)) = true :=
  isMistaken_of_word key (afterWord?_eq_some_iff.mpr ⟨rfl, spaced.atWordEnd rest⟩)

/-- Lines of the patterns do not pass. -/
theorem not_mem_of_not_mistaken {line : List Char} (unbroken : '\n' ∉ line)
    (passed : isMistaken line = false) :
    line ∉ labelPattern ∧ line ∉ gotoPattern ∧ line ∉ branchPattern ∧ line ∉ returnPattern := by
  rw [← Bool.not_eq_true] at passed
  refine ⟨?_, ?_, ?_, ?_⟩
  · intro label
    have labelled := (startsWithLabel_iff_mem unbroken).mpr label
    exact passed (isMistaken_iff.mpr (.inr (.inr (.inr labelled))))
  · intro goto
    obtain ⟨gap, target, spaced, -, rfl⟩ := mem_gotoPattern.mp goto
    exact passed (isMistaken_of_gap (by decide) spaced target)
  · intro branch
    obtain ⟨lead, condition, middle, tail, target, led, -, -, -, -, -, rfl⟩ :=
      mem_branchPattern.mp branch
    exact passed (isMistaken_of_gap (by decide) led _)
  · intro ret
    obtain ⟨rest, first⟩ := afterWord?_of_mem_returnPattern ret
    exact passed (isMistaken_of_word (by decide) first)

theorem read_of_not_mistaken {line : List Char} (tight : Tight line) (unbroken : '\n' ∉ line)
    (passed : isMistaken line = false) :
    BodyLine.read line = .instruction none (.plain (resolved line)) := by
  apply (read_eq_plain_iff tight unbroken).mpr
  refine ⟨?_, not_mem_of_not_mistaken unbroken passed⟩
  intro brace
  rw [isMistaken_iff.mpr (.inl brace)] at passed
  cases passed

/-- Comments do not pass, so that a line that passes says something. -/
theorem spokenFrom_of_not_mistaken {line : List Char} (tight : Tight line)
    (passed : isMistaken line = false) (number : Nat) (below : List (List Char)) :
    spokenFrom number (line :: below) = ⟨number, line⟩ :: spokenFrom (number + 1) below := by
  have spoken : (Line.mk number line).isSilent = false := by
    rw [← Bool.not_eq_true, isSilent_iff, not_or]
    refine ⟨tight.ne_nil, ?_⟩
    rintro ⟨rest, comment⟩
    rw [isMistaken_iff.mpr (.inr (.inl ⟨rest, comment.symm⟩))] at passed
    cases passed
  rw [spokenFrom_cons, tight.trim_eq, List.filter_cons_of_pos (by rw [spoken]; rfl)]
  rfl

/-- On a line of text, the scans of the writer and of the reader for a label are exact
for its pattern. Of the lines without blanks at their ends, the reader takes those that
are in no pattern for plain instructions without a label. Where such a line passes the
guard, inside a method in which no label waits, it adds just this instruction, and the
lines below it are read after that. -/
theorem guard_covers_reader {line : List Char} (unbroken : '\n' ∉ line) :
    (startsWithLabel line = true ↔ line ∈ labelPattern) ∧
    ((labelParts? line).isSome = true ↔ line ∈ labelPattern) ∧
    (Tight line →
      (BodyLine.read line = .instruction none (.plain (resolved line)) ↔
        line ≠ ['}'] ∧ line ∉ labelPattern ∧ line ∉ gotoPattern ∧ line ∉ branchPattern ∧
          line ∉ returnPattern) ∧
      (isMistaken line = false →
        ∀ (finished : Array Draft) (d : Draft) (number : Nat) (below : List (List Char)),
          (inside finished d none).run (spokenFrom number (line :: below)) =
            (inside finished (d.extend [⟨none, .plain (resolved line)⟩]) none).run
              (spokenFrom (number + 1) below))) := by
  refine ⟨startsWithLabel_iff_mem unbroken, isSome_labelParts?_iff unbroken, ?_⟩
  intro tight
  refine ⟨read_eq_plain_iff tight unbroken, ?_⟩
  intro passed finished d number below
  have read := read_of_not_mistaken tight unbroken passed
  rw [spokenFrom_of_not_mistaken tight passed, Reader.run, step_instruction none read]

/-- `L\{zz}: \{41}`, which would start with a label if its first group held digits. -/
def sampleNearLabel : List Char :=
  ['L', '\\', '{', 'z', 'z', '}', ':', ' ', '\\', '{', '4', '1', '}']

def sampleDraft : Draft := { line := 1, header := ⟨"m", []⟩ }

theorem sampleNearLabel_read :
    '\n' ∉ sampleNearLabel ∧ Tight sampleNearLabel ∧ isMistaken sampleNearLabel = false ∧
      sampleNearLabel ∉ labelPattern ∧
      (inside #[] sampleDraft none).run (spokenFrom 2 [sampleNearLabel]) =
        (inside #[] (sampleDraft.extend [⟨none, .plain "L\\\x7bzz\x7d: A"⟩]) none, none) := by
  have unbroken : '\n' ∉ sampleNearLabel := by decide
  have tight : Tight sampleNearLabel :=
    ⟨⟨'L', _, rfl, by decide⟩, ⟨sampleNearLabel.dropLast, '}', by decide, by decide⟩⟩
  have passed : isMistaken sampleNearLabel = false := by decide
  have unlabelled : startsWithLabel sampleNearLabel = false := by decide
  have shown : resolved sampleNearLabel = "L\\\x7bzz\x7d: A" := by decide
  obtain ⟨written, -, read⟩ := guard_covers_reader unbroken
  refine ⟨unbroken, tight, passed, ?_, ?_⟩
  · rw [← written, unlabelled]
    exact Bool.false_ne_true
  · rw [(read tight).2 passed, shown]
    rfl

end FlowGraph.Listing
