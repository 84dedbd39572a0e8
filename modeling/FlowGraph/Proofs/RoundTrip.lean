import FlowGraph.Listing.Reading
import FlowGraph.Proofs.WrittenLines

/-! Reading what was written. The lines of a written program are told apart
again, the lines of each method are read on their own, and a mislabelled line is
never made up for by its neighbours: it costs its method an instruction or gives
one a label it had not. So reading undoes writing exactly for the programs
without mislabelled instructions. -/
namespace FlowGraph.Listing
open FlowGraph.Text

/-! Lines. -/

theorem no_break_writeOp (op : Op) : '\n' ∉ writeOp op := by
  have name : ∀ name, '\n' ∉ writeName name := not_mem_writeName (by decide)
  have text : ∀ text : List Char, '\n' ∉ escapeText text := fun text => (guards_text text).no_break
  cases op with
  | plain plain =>
      obtain ⟨policy, guards, written⟩ := exists_guards_escapePlain plain.toList
      show '\n' ∉ escapePlain plain.toList
      rw [written]
      exact guards.no_break
  | goto target =>
      rw [writeOp_goto]
      simp [name]
  | branch condition target =>
      rw [writeOp_branch]
      simp [name, text]
  | ret value =>
      cases value with
      | none => decide
      | some value =>
          rw [writeOp_ret_some]
          simp [text]

theorem no_break_writeInstruction (i : Instruction) : '\n' ∉ writeInstruction i := by
  obtain ⟨label, op⟩ := i
  have last := no_break_writeOp op
  cases label with
  | none =>
      show '\n' ∉ "    ".toList ++ writeOp op
      simp [last]
  | some label =>
      have name : '\n' ∉ writeName label.name := not_mem_writeName (by decide) _
      show '\n' ∉ writeName label.name ++ ": ".toList ++ writeOp op
      simp [last, name]

theorem no_break_writeHeader (b : Body) : '\n' ∉ writeHeader b := by
  have name : '\n' ∉ writeName b.name := not_mem_writeName (by decide) _
  have params : '\n' ∉ [',', ' '].intercalate (b.params.map writeName) :=
    not_mem_params (by decide) (by decide) (by decide) b.params
  rw [writeHeader_eq]
  simp [name, params]

theorem no_break_writeBody (b : Body) : ∀ line ∈ writeBody b, '\n' ∉ line := by
  intro line member
  simp only [writeBody, List.mem_append, List.mem_cons, List.mem_map, List.not_mem_nil,
    or_false] at member
  obtain (rfl | ⟨i, _, rfl⟩) | rfl := member
  · exact no_break_writeHeader b
  · exact no_break_writeInstruction i
  · decide

theorem splitOn_joinLines {lines : List (List Char)} (clear : ∀ line ∈ lines, '\n' ∉ line)
    (rest : List Char) :
    (joinLines lines ++ rest).splitOn '\n' = lines ++ rest.splitOn '\n' := by
  induction lines with
  | nil => rfl
  | cons line lines ih =>
      obtain ⟨first, others⟩ := List.forall_mem_cons.mp clear
      have shape :
          joinLines (line :: lines) ++ rest = line ++ '\n' :: (joinLines lines ++ rest) := by
        simp [joinLines]
      rw [shape, List.splitOn_append_cons_self_of_not_mem first, ih others, List.cons_append]

/-- The lines that say something, without their numbers. -/
def spokenTexts (lines : List (List Char)) : List (List Char) :=
  (lines.map trim).filter fun text => !(text.isEmpty || ['/', '/'].isPrefixOf text)

theorem map_text_spokenLines (lines : List (List Char)) :
    (spokenLines lines).map (·.text) = spokenTexts lines := by
  let numbered := (lines.zipIdx 1).map fun p => Line.mk p.2 (trim p.1)
  have texts : numbered.map (·.text) = lines.map trim := by
    rw [List.map_map]
    conv => rhs; rw [← List.zipIdx_map_fst 1 lines, List.map_map]
    rfl
  rw [spokenTexts, ← texts, List.filter_map]
  rfl

theorem spokenTexts_append (front back : List (List Char)) :
    spokenTexts (front ++ back) = spokenTexts front ++ spokenTexts back := by
  simp [spokenTexts]

/-- The lines of a written method as a reader gets them. -/
def bodyTexts (b : Body) : List (List Char) :=
  writeHeader b :: (b.instructions.map spokenLine ++ [['}']])

theorem not_comment_writeHeader (b : Body) : ¬ ['/', '/'] <+: writeHeader b := by
  rw [writeHeader_eq, List.append_assoc]
  exact not_comment_of_marks (by decide) (List.all_eq_true.mp (by decide)) _

theorem spokenTexts_writeBody (b : Body) : spokenTexts (writeBody b) = bodyTexts b := by
  have trimmed : (writeBody b).map trim = bodyTexts b := by
    have close : trim ['}'] = ['}'] := by decide
    have inner : trim ∘ writeInstruction = spokenLine := funext trim_writeInstruction
    simp [writeBody, bodyTexts, (tight_writeHeader b).trim_eq, inner, close]
  rw [spokenTexts, trimmed, List.filter_eq_self]
  intro text member
  have solid : Tight text → ¬ ['/', '/'] <+: text →
      (!(text.isEmpty || ['/', '/'].isPrefixOf text)) = true := by
    intro tight plain
    rw [List.isEmpty_eq_false_iff.mpr tight.ne_nil, Bool.false_or, Bool.not_eq_true',
      Bool.eq_false_iff, ne_eq, List.isPrefixOf_iff_prefix]
    exact plain
  simp only [bodyTexts, List.mem_cons, List.mem_append, List.mem_map, List.not_mem_nil,
    or_false] at member
  obtain rfl | ⟨i, _, rfl⟩ | rfl := member
  · exact solid (tight_writeHeader b) (not_comment_writeHeader b)
  · exact solid (tight_spokenLine i) (not_comment_spokenLine i)
  · decide

theorem spokenTexts_write (p : Program) :
    spokenTexts (textLines (write p)) = p.bodies.flatMap bodyTexts := by
  rw [textLines, write, String.toList_ofList]
  induction p.bodies with
  | nil => decide
  | cons b bodies ih =>
      have clear := no_break_writeBody b
      have silent : spokenTexts [[]] = [] := by decide
      cases bodies with
      | nil =>
          have lines := splitOn_joinLines clear []
          rw [List.append_nil, List.splitOn_nil] at lines
          rw [List.map_singleton, List.intercalate_singleton, lines, spokenTexts_append,
            spokenTexts_writeBody, silent, List.flatMap_singleton, List.append_nil]
      | cons c bodies =>
          have gap : ∀ rest, (['\n'] ++ rest).splitOn '\n' = [[]] ++ rest.splitOn '\n' :=
            @splitOn_joinLines [[]] (by simp)
          rw [List.map_cons, List.intercalate_cons_of_ne_nil (by simp), List.append_assoc,
            splitOn_joinLines clear, gap, spokenTexts_append, spokenTexts_append,
            spokenTexts_writeBody, silent, ih]
          rfl

/-! The lines of one method. -/

/-- The instructions that the lines of a method give until it is closed, after
a label that waits for its instruction. There are none if a label is left over. -/
def gather : (waiting : Option Label) → List BodyLine → Option (List Instruction)
  | none, [] => some []
  | some _, [] => none
  | _, .close :: _ => none
  | none, .label label :: rest => gather (some label) rest
  | some _, .label _ :: _ => none
  | none, .instruction label op :: rest => (gather none rest).map (⟨label, op⟩ :: ·)
  | some label, .instruction none op :: rest => (gather none rest).map (⟨some label, op⟩ :: ·)
  | some _, .instruction (some _) _ :: _ => none

/-- A method with more instructions. -/
def Draft.extend (d : Draft) (is : List Instruction) : Draft :=
  { d with instructions := d.instructions ++ is }

/-- The reader inside a method, after the given label if one waits. -/
def inside (finished : Array Draft) (d : Draft) (pending : Option Pending) : Reader :=
  { finished, draft := some d, pending }

section
variable {finished : Array Draft} {d : Draft} {l : Line}

theorem Draft.extend_nil : d.extend [] = d := by
  simp [Draft.extend]

theorem Draft.extend_extend (i : Instruction) (is : List Instruction) :
    (d.extend [i]).extend is = d.extend (i :: is) := by
  simp [Draft.extend]

theorem step_close (pending : Option Pending) (shown : BodyLine.read l.text = .close) :
    (inside finished d pending).step l =
      match pending with
      | some waiting => .error ⟨waiting.line, .labelWithoutInstruction waiting.label⟩
      | none => .ok { finished := finished.push d } := by
  cases pending <;>
    simp [inside, Reader.step, Reader.readBodyLine, shown, Reader.closeMethod]

theorem step_label {label : Label} (pending : Option Pending)
    (shown : BodyLine.read l.text = .label label) :
    (inside finished d pending).step l =
      match pending with
      | some waiting => .error ⟨l.number, .labelAfterLabel label waiting.label waiting.line⟩
      | none => .ok (inside finished d (some ⟨label, l.number⟩)) := by
  cases pending <;>
    simp [inside, Reader.step, Reader.readBodyLine, shown, Reader.settleLabel]

theorem step_instruction {label : Option Label} {op : Op} (pending : Option Pending)
    (shown : BodyLine.read l.text = .instruction label op) :
    (inside finished d pending).step l =
      match pending, label with
      | some waiting, some label =>
          .error ⟨l.number, .labelAfterLabel label waiting.label waiting.line⟩
      | some waiting, none => .ok (inside finished (d.extend [⟨some waiting.label, op⟩]) none)
      | none, label => .ok (inside finished (d.extend [⟨label, op⟩]) none) := by
  cases pending <;> cases label <;>
    simp [inside, Reader.step, Reader.readBodyLine, shown, Reader.settleLabel,
      Reader.addInstruction, Draft.extend]

end

/-- Reading the lines of a method comes to what they give. -/
theorem run_body_of_some {finished : Array Draft} {pending : Option Pending} {d : Draft}
    {body : List Line} {last : Line} {is : List Instruction}
    (closed : BodyLine.read last.text = .close)
    (gathered : gather (pending.map (·.label)) (body.map fun l => BodyLine.read l.text) = some is) :
    (inside finished d pending).run (body ++ [last]) =
      ({ finished := finished.push (d.extend is) }, none) := by
  induction body generalizing pending d is with
  | nil =>
      cases pending with
      | none =>
          cases gathered
          rw [Draft.extend_nil, List.nil_append, Reader.run, step_close none closed]
          rfl
      | some waiting => cases gathered
  | cons l body ih =>
      rw [List.cons_append, Reader.run]
      rw [List.map_cons] at gathered
      cases shown : BodyLine.read l.text with
      | close =>
          rw [shown] at gathered
          cases pending <;> cases gathered
      | label label =>
          rw [shown] at gathered
          cases pending with
          | some waiting => cases gathered
          | none =>
              rw [step_label none shown]
              exact ih gathered
      | instruction label op =>
          rw [shown] at gathered
          cases pending with
          | none =>
              obtain ⟨rest, more, rfl⟩ := Option.map_eq_some_iff.mp gathered
              rw [step_instruction none shown, ← Draft.extend_extend]
              exact ih more
          | some waiting =>
              cases label with
              | some label => cases gathered
              | none =>
                  obtain ⟨rest, more, rfl⟩ := Option.map_eq_some_iff.mp gathered
                  rw [step_instruction (some waiting) shown, ← Draft.extend_extend]
                  exact ih more

theorem run_body_of_none {finished : Array Draft} {pending : Option Pending} {d : Draft}
    {body : List Line} {last : Line} (closed : BodyLine.read last.text = .close)
    (inner : ∀ l ∈ body, BodyLine.read l.text ≠ .close)
    (failed : gather (pending.map (·.label)) (body.map fun l => BodyLine.read l.text) = none) :
    ∃ stopped e, (inside finished d pending).run (body ++ [last]) = (stopped, some e) := by
  induction body generalizing pending d with
  | nil =>
      cases pending with
      | none => cases failed
      | some waiting =>
          rw [List.nil_append, Reader.run, step_close (some waiting) closed]
          exact ⟨_, _, rfl⟩
  | cons l body ih =>
      obtain ⟨open_, others⟩ := List.forall_mem_cons.mp inner
      rw [List.cons_append, Reader.run]
      rw [List.map_cons] at failed
      cases shown : BodyLine.read l.text with
      | close => exact absurd shown open_
      | label label =>
          rw [shown] at failed
          rw [step_label pending shown]
          cases pending with
          | none => exact ih others failed
          | some waiting => exact ⟨_, _, rfl⟩
      | instruction label op =>
          rw [shown] at failed
          rw [step_instruction pending shown]
          cases pending with
          | none => exact ih others (Option.map_eq_none_iff.mp failed)
          | some waiting =>
              cases label with
              | some label => exact ⟨_, _, rfl⟩
              | none => exact ih others (Option.map_eq_none_iff.mp failed)

/-! What the lines give. -/

theorem length_le_of_gather {waiting : Option Label} {items : List BodyLine}
    {is : List Instruction} (gathered : gather waiting items = some is) :
    is.length ≤ items.length := by
  fun_induction gather waiting items generalizing is with
  | case1 =>
      cases gathered
      exact Nat.le_refl 0
  | case2 => cases gathered
  | case3 => cases gathered
  | case4 label rest ih => exact Nat.le_succ_of_le (ih gathered)
  | case5 => cases gathered
  | case6 label op rest ih =>
      obtain ⟨others, more, rfl⟩ := Option.map_eq_some_iff.mp gathered
      exact Nat.succ_le_succ (ih more)
  | case7 label op rest ih =>
      obtain ⟨others, more, rfl⟩ := Option.map_eq_some_iff.mp gathered
      exact Nat.succ_le_succ (ih more)
  | case8 => cases gathered

/-- An instruction and the line it should be read from. -/
def asLine (i : Instruction) : BodyLine := .instruction i.label i.op

/-- As many lines as instructions give these instructions only one by one. -/
theorem gather_eq_some_iff {items : List BodyLine} {is : List Instruction}
    (same : items.length = is.length) : gather none items = some is ↔ items = is.map asLine := by
  induction items generalizing is with
  | nil =>
      rw [List.length_nil, eq_comm, List.length_eq_zero_iff] at same
      simp [same, gather]
  | cons item items ih =>
      obtain ⟨i, is, rfl⟩ := List.exists_cons_of_length_eq_add_one same.symm
      have rest : items.length = is.length := Nat.succ.inj same
      cases item with
      | close => simp [gather, asLine]
      | label label =>
          -- This line gives no instruction, and the lines left are too few to give them all.
          constructor
          · intro gathered
            have short := @length_le_of_gather (some label) items _ gathered
            rw [List.length_cons] at short
            omega
          · intro lines
            cases lines
      | instruction label op =>
          constructor
          · intro gathered
            obtain ⟨others, more, joined⟩ := Option.map_eq_some_iff.mp gathered
            cases joined
            rw [(ih rest).mp more]
            rfl
          · intro lines
            obtain ⟨first, others⟩ := List.cons.inj lines
            cases first
            rw [gather, (ih rest).mpr others]
            rfl

theorem read_spokenLine_iff (i : Instruction) :
    BodyLine.read (spokenLine i) = asLine i ↔ isMislabelled i = false := by
  constructor
  · intro shown
    apply Bool.eq_false_iff.mpr
    intro bad
    obtain ⟨unlabelled, label, alone | ⟨op, carried⟩⟩ := read_mislabelled bad
    · rw [shown] at alone
      cases alone
    · rw [shown, asLine, unlabelled] at carried
      cases carried
  · exact read_spokenLine

theorem forall_not_mislabelled_iff (is : List Instruction) :
    (∀ i ∈ is, isMislabelled i = false) ↔
      ∀ text, ⟨none, .plain text⟩ ∈ is → isFragile text.toList = false := by
  constructor
  · intro fine text member
    exact fine ⟨none, .plain text⟩ member
  · intro fine i member
    unfold isMislabelled
    split
    · rename_i text unlabelled plain
      apply fine text
      rwa [← unlabelled, ← plain]
    · rfl

theorem gather_spokenLines (is : List Instruction) :
    gather none (is.map fun i => BodyLine.read (spokenLine i)) = some is ↔
      ∀ i ∈ is, isMislabelled i = false := by
  rw [gather_eq_some_iff (List.length_map _), List.map_inj_left]
  simp only [read_spokenLine_iff]

theorem read_spokenLine_ne_close (i : Instruction) : BodyLine.read (spokenLine i) ≠ .close := by
  intro close
  cases bad : isMislabelled i with
  | false =>
      rw [read_spokenLine bad] at close
      cases close
  | true =>
      obtain ⟨_, label, alone | ⟨op, carried⟩⟩ := read_mislabelled bad
      · rw [close] at alone
        cases alone
      · rw [close] at carried
        cases carried

/-! The lines of a program. -/

/-- The method that the lines of a written method give. -/
def reread? (b : Body) : Option Body :=
  (gather none (b.instructions.map fun i => BodyLine.read (spokenLine i))).map
    fun is => ⟨b.name, b.params, is⟩

theorem reread?_eq_self_iff (b : Body) :
    reread? b = some b ↔ ∀ i ∈ b.instructions, isMislabelled i = false := by
  rw [← gather_spokenLines, reread?, Option.map_eq_some_iff]
  constructor
  · rintro ⟨is, gathered, same⟩
    rw [gathered, ← congrArg Body.instructions same]
  · intro gathered
    exact ⟨b.instructions, gathered, rfl⟩

theorem step_header {finished : Array Draft} {l : Line} {b : Body}
    (text : l.text = writeHeader b) :
    Reader.step { finished } l =
      .ok (inside finished { line := l.number, header := ⟨b.name, b.params⟩ } none) := by
  simp [Reader.step, Reader.openMethod, text, read?_writeHeader, inside]

theorem exists_lines_of_bodyTexts {lines : List Line} {b : Body}
    (texts : lines.map (·.text) = bodyTexts b) :
    ∃ first body last, lines = first :: (body ++ [last]) ∧ first.text = writeHeader b ∧
      body.map (·.text) = b.instructions.map spokenLine ∧ last.text = ['}'] := by
  obtain ⟨first, rest, rfl, header, others⟩ := List.map_eq_cons_iff.mp texts
  obtain ⟨body, back, rfl, inner, outer⟩ := List.map_eq_append_iff.mp others
  obtain ⟨last, none_, rfl, close, empty⟩ := List.map_eq_cons_iff.mp outer
  rw [List.map_eq_nil_iff] at empty
  subst empty
  exact ⟨first, body, last, rfl, header, inner, close⟩

theorem run_method {finished : Array Draft} {lines : List Line} {b : Body}
    (texts : lines.map (·.text) = bodyTexts b) :
    (∀ c, reread? b = some c → ∃ d : Draft, d.body = c ∧
      Reader.run { finished } lines = ({ finished := finished.push d }, none)) ∧
    (reread? b = none → ∃ stopped e, Reader.run { finished } lines = (stopped, some e)) := by
  obtain ⟨first, body, last, rfl, header, inner, close⟩ := exists_lines_of_bodyTexts texts
  have closed : BodyLine.read last.text = .close := by
    rw [close]
    rfl
  have items : body.map (fun l => BodyLine.read l.text) =
      b.instructions.map fun i => BodyLine.read (spokenLine i) := by
    have read := congrArg (List.map BodyLine.read) inner
    rwa [List.map_map, List.map_map] at read
  rw [Reader.run, step_header header]
  constructor
  · intro c reread
    obtain ⟨is, gathered, same⟩ := Option.map_eq_some_iff.mp reread
    rw [← items] at gathered
    refine ⟨_, ?_, run_body_of_some closed gathered⟩
    rw [← same]
    simp [Draft.body, Draft.extend]
  · intro lost
    have failed := Option.map_eq_none_iff.mp lost
    rw [← items] at failed
    have open_ : ∀ l ∈ body, BodyLine.read l.text ≠ .close := by
      intro l member close
      have shown : BodyLine.read l.text ∈ body.map fun l => BodyLine.read l.text :=
        List.mem_map_of_mem member
      rw [items, List.mem_map] at shown
      obtain ⟨i, _, read⟩ := shown
      exact read_spokenLine_ne_close i (read.trans close)
    exact run_body_of_none closed open_ failed

theorem run_program {finished : Array Draft} {lines : List Line} {bodies : List Body}
    (texts : lines.map (·.text) = bodies.flatMap bodyTexts) :
    (∀ cs, bodies.mapM reread? = some cs → ∃ drafts : Array Draft,
      drafts.toList.map (·.body) = finished.toList.map (·.body) ++ cs ∧
        Reader.run { finished } lines = ({ finished := drafts }, none)) ∧
    (bodies.mapM reread? = none →
      ∃ stopped e, Reader.run { finished } lines = (stopped, some e)) := by
  induction bodies generalizing finished lines with
  | nil =>
      rw [List.flatMap_nil, List.map_eq_nil_iff] at texts
      subst texts
      constructor
      · intro cs none_
        cases none_
        exact ⟨finished, by simp, rfl⟩
      · intro lost
        cases lost
  | cons b bodies ih =>
      rw [List.flatMap_cons] at texts
      obtain ⟨front, back, rfl, first, others⟩ := List.map_eq_append_iff.mp texts
      obtain ⟨kept, failed⟩ := @run_method finished _ _ first
      rw [Reader.run_append, List.mapM_cons]
      cases reread : reread? b with
      | none =>
          obtain ⟨stopped, e, run⟩ := failed reread
          rw [run]
          exact ⟨by simp, fun _ => ⟨stopped, e, rfl⟩⟩
      | some c =>
          obtain ⟨d, same, run⟩ := kept c reread
          obtain ⟨more, lost⟩ := @ih (finished.push d) back others
          rw [run]
          cases later : bodies.mapM reread? with
          | none => exact ⟨by simp, fun _ => lost later⟩
          | some rest =>
              obtain ⟨drafts, contents, finish⟩ := more rest later
              refine ⟨?_, by simp⟩
              intro cs together
              cases together
              exact ⟨drafts, by simp [contents, same], finish⟩

theorem readLines_write (p : Program) (cs : List Body) :
    readLines (textLines (write p)) = .ok cs ↔ p.bodies.mapM reread? = some cs := by
  have texts := map_text_spokenLines (textLines (write p))
  rw [spokenTexts_write] at texts
  obtain ⟨kept, failed⟩ := @run_program #[] _ _ texts
  unfold readLines
  cases result : p.bodies.mapM reread? with
  | none =>
      obtain ⟨stopped, e, run⟩ := failed result
      rw [run]
      simp
  | some bodies =>
      obtain ⟨drafts, contents, run⟩ := kept bodies result
      rw [run]
      simp [Reader.endFault?, contents]

theorem mapM_reread?_eq_self_iff (bodies : List Body) :
    bodies.mapM reread? = some bodies ↔ ∀ b ∈ bodies, reread? b = some b := by
  induction bodies with
  | nil => simp
  | cons b bodies ih =>
      rw [List.forall_mem_cons, ← ih, List.mapM_cons]
      cases reread? b <;> cases bodies.mapM reread? <;> simp

theorem exists_read_write_iff (p : Program) (cs : List Body) :
    (∃ q, read (write p) = .ok q ∧ q.bodies = cs) ↔ p.bodies.mapM reread? = some cs := by
  rw [← readLines_write, read]
  cases readLines (textLines (write p)) with
  | error e => simp [Except.map]
  | ok bodies => simp [Except.map]

theorem exists_read_back_iff (p : Program) :
    (∃ q, read (write p) = .ok q ∧ q.bodies = p.bodies) ↔
      ∀ b ∈ p.bodies, ∀ i ∈ b.instructions, isMislabelled i = false := by
  rw [exists_read_write_iff, mapM_reread?_eq_self_iff]
  exact forall₂_congr fun b _ => reread?_eq_self_iff b

/-- Reading undoes writing exactly if no unlabelled plain instruction of the
program has a fragile text. -/
theorem reads_back_iff (p : Program) :
    (∃ q, read (write p) = .ok q ∧ q.bodies = p.bodies) ↔
      ∀ b ∈ p.bodies, ∀ text, ⟨none, .plain text⟩ ∈ b.instructions →
        isFragile text.toList = false := by
  rw [exists_read_back_iff]
  exact forall₂_congr fun b _ => forall_not_mislabelled_iff b.instructions

/-- A program whose one instruction is written as a line that starts with a label. -/
def labelledByWriting : Program := .ofList [⟨"m", [], [⟨none, .plain "goto a: x"⟩]⟩]

theorem labelledByWriting_not_read_back :
    ¬ ∃ q, read (write labelledByWriting) = .ok q ∧ q.bodies = labelledByWriting.bodies := by
  have shown : read (write labelledByWriting) =
      .ok (.ofList [⟨"m", [], [⟨some ⟨"goto a"⟩, .plain "x"⟩]⟩]) := by
    rfl
  rintro ⟨q, found, same⟩
  rw [shown] at found
  cases found
  exact absurd same (by decide +kernel)

/-! The shape of the instructions that do not come back. -/

/-- An instruction without a label whose text is a keyword, one blank, what hides
in a name, a colon, and what a label sets off. -/
inductive Fragile : Instruction → Prop where
  | plain {text word : String} {gap : Char} {name tail : List Char} :
      text.toList = word.toList ++ gap :: (name ++ ':' :: tail) → word ∈ keywords →
      isBlank gap = true → isControl gap = false → (∀ c ∈ name, hidesInName c = true) →
      setsOff tail = true → Fragile ⟨none, .plain text⟩

theorem isMislabelled_iff_fragile (i : Instruction) : isMislabelled i = true ↔ Fragile i := by
  constructor
  · intro bad
    obtain ⟨label, op⟩ := i
    unfold isMislabelled at bad
    split at bad
    · next text unlabelled plain =>
        simp only at unlabelled plain
        subst unlabelled plain
        obtain ⟨word, key, gap, rest, shape, blank, printable, completes⟩ := isFragile_iff.mp bad
        obtain ⟨name, tail, rfl, hidden, off⟩ := completesLabel_iff.mp completes
        exact .plain shape key blank printable hidden off
    · cases bad
  · intro fragile
    cases fragile with
    | plain shape key blank printable hidden off =>
        exact isFragile_iff.mpr ⟨_, key, _, _, shape, blank, printable,
          completesLabel_iff.mpr ⟨_, _, rfl, hidden, off⟩⟩

instance (i : Instruction) : Decidable (Fragile i) :=
  decidable_of_iff _ (isMislabelled_iff_fragile i)

/-- The bodies of a program come back from its text exactly if no body has a
fragile instruction. -/
theorem keeps_bodies_iff (p : Program) :
    (∃ q, read (write p) = .ok q ∧ q.bodies = p.bodies) ↔
      ∀ b ∈ p.bodies, ∀ i ∈ b.instructions, ¬ Fragile i := by
  rw [exists_read_back_iff]
  simp only [← isMislabelled_iff_fragile, Bool.not_eq_true]

example : Fragile ⟨none, .plain "if :"⟩ := by decide

example : ¬ Fragile ⟨none, .plain "goto a: "⟩ := by decide

end FlowGraph.Listing
