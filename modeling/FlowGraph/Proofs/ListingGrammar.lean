import FlowGraph.Proofs.LineShapes
import FlowGraph.Proofs.RoundTrip
import Mathlib.Data.List.Induction

/-! Which lines make up a listing. A listing is a sequence of methods, a method is
a header, the lines of a body and a brace, and in a body a label alone stands
directly above the instruction that it belongs to. Lines that are no listing
either have a first line with which they can no longer become one, or end inside
a method. The reader accepts exactly the listings, and it reports just that line. -/
namespace FlowGraph.Listing
open FlowGraph.Text

/-- The lines of a body and the instructions that they give. -/
inductive BodyLines : List Line → List Instruction → Prop where
  | nil : BodyLines [] []
  | line {l : Line} {label : Option Label} {op : Op} {rest : List Line} {is : List Instruction} :
      Tells l.text (.instruction label op) → BodyLines rest is →
        BodyLines (l :: rest) (⟨label, op⟩ :: is)
  | underLabel {l m : Line} {label : Label} {op : Op} {rest : List Line} {is : List Instruction} :
      Tells l.text (.label label) → Tells m.text (.instruction none op) → BodyLines rest is →
        BodyLines (l :: m :: rest) (⟨some label, op⟩ :: is)

/-- The lines of a listing and the methods that they give. -/
inductive Methods : List Line → List Body → Prop where
  | nil : Methods [] []
  | method {first last : Line} {body rest : List Line} {name params : List Char}
      {is : List Instruction} {bodies : List Body} :
      HeaderShape first.text name params → BodyLines body is → last.text = ['}'] →
        Methods rest bodies →
          Methods (first :: (body ++ last :: rest))
            (⟨resolved name, readParams params, is⟩ :: bodies)

/-- Lines of methods, and after them the header and the body of a method that is
not closed, in which no label waits for its instruction. -/
inductive OpenMethod : (lines : List Line) → (header : Line) → Body → List Body → Prop where
  | mk {front body : List Line} {header : Line} {name params : List Char} {is : List Instruction}
      {done : List Body} :
      Methods front done → HeaderShape header.text name params → BodyLines body is →
        OpenMethod (front ++ header :: body) header ⟨resolved name, readParams params, is⟩ done

/-- The lines are the start of some listing. -/
def Begins (lines : List Line) : Prop := ∃ more bodies, Methods (lines ++ more) bodies

/-- The line starts with a label. -/
inductive Labelled (l : Line) (label : Label) : Prop where
  | alone : Tells l.text (.label label) → Labelled l label
  | first {op : Op} : Tells l.text (.instruction (some label) op) → Labelled l label

/-- What is wrong with a line after the lines before it. -/
inductive Blames : (before : List Line) → Line → ReadError → Prop where
  | noHeader {before : List Line} {l : Line} {done : List Body} :
      Methods before done → (∀ name params, ¬ HeaderShape l.text name params) →
        Blames before l ⟨l.number, .expectedHeader (String.ofList l.text)⟩
  | secondLabel {front : List Line} {header m l : Line} {b : Body} {done : List Body}
      {label second : Label} :
      OpenMethod front header b done → Tells m.text (.label label) → Labelled l second →
        Blames (front ++ [m]) l ⟨l.number, .labelAfterLabel second label m.number⟩
  | lastLabel {front : List Line} {header m l : Line} {b : Body} {done : List Body}
      {label : Label} :
      OpenMethod front header b done → Tells m.text (.label label) → l.text = ['}'] →
        Blames (front ++ [m]) l ⟨m.number, .labelWithoutInstruction label⟩

/-- A method is open at the end, perhaps with a label that waits. -/
inductive Unclosed : (lines : List Line) → (header : Line) → (name : String) → Prop where
  | body {lines : List Line} {header : Line} {b : Body} {done : List Body} :
      OpenMethod lines header b done → Unclosed lines header b.name
  | label {front : List Line} {header m : Line} {b : Body} {done : List Body} {label : Label} :
      OpenMethod front header b done → Tells m.text (.label label) →
        Unclosed (front ++ [m]) header b.name

/-- The first fault of lines that are no listing: of the first line with which they
are no longer the start of one, or else of the header of the method that is open
at the end. -/
inductive FirstFault (lines : List Line) : ReadError → Prop where
  | line {before after : List Line} {l : Line} {e : ReadError} :
      lines = before ++ l :: after → Begins before → ¬ Begins (before ++ [l]) → Blames before l e →
        FirstFault lines e
  | ending {header : Line} {name : String} :
      Begins lines → Unclosed lines header name →
        FirstFault lines ⟨header.number, .neverClosed name⟩

/-! Putting lines together. -/

theorem BodyLines.append {front back : List Line} {is js : List Instruction}
    (first : BodyLines front is) (second : BodyLines back js) :
    BodyLines (front ++ back) (is ++ js) := by
  induction first with
  | nil => exact second
  | line tells _ ih => exact .line tells ih
  | underLabel label tells _ ih => exact .underLabel label tells ih

theorem Methods.append {front back : List Line} {bodies others : List Body}
    (first : Methods front bodies) (second : Methods back others) :
    Methods (front ++ back) (bodies ++ others) := by
  induction first with
  | nil => exact second
  | method header body close _ ih =>
      have longer := Methods.method header body close ih
      simpa using longer

namespace OpenMethod

variable {lines : List Line} {header : Line} {b : Body} {done : List Body}

theorem extend {more : List Line} {is : List Instruction} (inside : OpenMethod lines header b done)
    (body : BodyLines more is) :
    OpenMethod (lines ++ more) header { b with instructions := b.instructions ++ is } done := by
  cases inside with
  | mk methods shape before =>
      rw [List.append_assoc, List.cons_append]
      exact .mk methods shape (before.append body)

theorem close {last : Line} (inside : OpenMethod lines header b done) (brace : last.text = ['}']) :
    Methods (lines ++ [last]) (done ++ [b]) := by
  cases inside with
  | mk methods shape body =>
      rw [List.append_assoc, List.cons_append]
      exact methods.append (.method shape body brace .nil)

/-- An open method can be closed, and a label that waits be given its instruction. -/
theorem begins (inside : OpenMethod lines header b done) : Begins lines :=
  ⟨[⟨0, ['}']⟩], _, inside.close rfl⟩

theorem begins_label {m : Line} {label : Label} (inside : OpenMethod lines header b done)
    (tells : Tells m.text (.label label)) : Begins (lines ++ [m]) := by
  have plain : Tells ['x'] (.instruction none (.plain "x")) := read_eq_iff_tells.mp (by rfl)
  have filled := inside.extend (.underLabel (m := ⟨0, ['x']⟩) tells plain .nil)
  obtain ⟨more, bodies, whole⟩ := filled.begins
  exact ⟨⟨0, ['x']⟩ :: more, bodies, by simpa using whole⟩

end OpenMethod

/-! Every list of lines is one of four things. -/

/-- How far lines make up a listing. -/
inductive Progress (lines : List Line) : Prop where
  | complete {bodies : List Body} : Methods lines bodies → Progress lines
  | inside {header : Line} {b : Body} {done : List Body} : OpenMethod lines header b done →
      Progress lines
  | waiting {front : List Line} {header m : Line} {b : Body} {done : List Body} {label : Label} :
      lines = front ++ [m] → OpenMethod front header b done → Tells m.text (.label label) →
        Progress lines
  | failed {before after : List Line} {l : Line} {e : ReadError} :
      lines = before ++ l :: after → Blames before l e → Progress lines

theorem Progress.next {lines : List Line} (progress : Progress lines) (l : Line) :
    Progress (lines ++ [l]) := by
  cases progress with
  | complete methods =>
      by_cases header : ∃ name params, HeaderShape l.text name params
      · obtain ⟨name, params, shape⟩ := header
        exact .inside (.mk methods shape .nil)
      · exact .failed rfl (.noHeader methods fun name params shape => header ⟨name, params, shape⟩)
  | inside method =>
      cases said : BodyLine.read l.text with
      | close =>
          cases read_eq_iff_tells.mp said with
          | close brace => exact .complete (method.close brace)
      | label label => exact .waiting rfl method (read_eq_iff_tells.mp said)
      | instruction label op =>
          exact .inside (method.extend (.line (read_eq_iff_tells.mp said) .nil))
  | waiting shape method above =>
      subst shape
      cases said : BodyLine.read l.text with
      | close =>
          cases read_eq_iff_tells.mp said with
          | close brace => exact .failed rfl (.lastLabel method above brace)
      | label label =>
          exact .failed rfl (.secondLabel method above (.alone (read_eq_iff_tells.mp said)))
      | instruction label op =>
          have tells := read_eq_iff_tells.mp said
          cases label with
          | some label => exact .failed rfl (.secondLabel method above (.first tells))
          | none =>
              rw [List.append_assoc]
              exact .inside (method.extend (.underLabel above tells .nil))
  | failed shape blame =>
      subst shape
      exact .failed (List.append_assoc _ _ _) blame

theorem progress (lines : List Line) : Progress lines := by
  induction lines using List.reverseRecOn with
  | nil => exact .complete .nil
  | append_singleton lines l ih => exact ih.next l

/-! Reading. -/

theorem BodyLines.run {body : List Line} {is : List Instruction} (lines : BodyLines body is)
    (finished : Array Draft) (d : Draft) (rest : List Line) :
    (inside finished d none).run (body ++ rest) =
      (inside finished (d.extend is) none).run rest := by
  induction lines generalizing d with
  | nil => rw [Draft.extend_nil, List.nil_append]
  | line tells _ ih =>
      rw [List.cons_append, Reader.run, step_instruction none (read_eq_iff_tells.mpr tells),
        ← Draft.extend_extend]
      exact ih _
  | @underLabel l m label op _ _ above tells _ ih =>
      rw [List.cons_append, List.cons_append, Reader.run,
        step_label none (read_eq_iff_tells.mpr above), ← Draft.extend_extend]
      simp only [Reader.run,
        step_instruction (some ⟨label, l.number⟩) (read_eq_iff_tells.mpr tells)]
      exact ih _

theorem run_header {finished : Array Draft} {l : Line} {name params : List Char}
    (shape : HeaderShape l.text name params) (rest : List Line) :
    Reader.run { finished } (l :: rest) =
      (inside finished { line := l.number, header := ⟨resolved name, readParams params⟩ } none).run
        rest := by
  have header := read?_eq_some_iff.mpr ⟨name, params, shape, rfl⟩
  simp only [Reader.run, Reader.step, Reader.openMethod, header, inside]

theorem Methods.run {lines : List Line} {bodies : List Body} (methods : Methods lines bodies)
    (finished : Array Draft) (rest : List Line) :
    ∃ drafts : Array Draft,
      drafts.toList.map (·.body) = finished.toList.map (·.body) ++ bodies ∧
        Reader.run { finished } (lines ++ rest) = Reader.run { finished := drafts } rest := by
  induction methods generalizing finished with
  | nil => exact ⟨finished, by simp, rfl⟩
  | @method first last body more name params is bodies shape lines brace _ ih =>
      let d : Draft := { line := first.number, header := ⟨resolved name, readParams params⟩ }
      have given : (d.extend is).body = ⟨resolved name, readParams params, is⟩ := by
        simp [d, Draft.body, Draft.extend]
      obtain ⟨drafts, contents, run⟩ := ih (finished.push (d.extend is))
      refine ⟨drafts, ?_, ?_⟩
      · simp [contents, given]
      · have close : BodyLine.read last.text = .close := read_eq_iff_tells.mpr (.close brace)
        rw [← run, List.cons_append, run_header shape, List.append_assoc, lines.run,
          List.cons_append, Reader.run, step_close none close]

theorem OpenMethod.run {lines : List Line} {header : Line} {b : Body} {done : List Body}
    (method : OpenMethod lines header b done) (rest : List Line) :
    ∃ (finished : Array Draft) (d : Draft), d.body = b ∧ d.line = header.number ∧
      Reader.run {} (lines ++ rest) = (inside finished d none).run rest := by
  cases method with
  | @mk front body header name params is _ methods shape lines =>
      obtain ⟨drafts, -, run⟩ := methods.run #[] (header :: body ++ rest)
      let d : Draft := { line := header.number, header := ⟨resolved name, readParams params⟩ }
      refine ⟨drafts, d.extend is, by simp [d, Draft.body, Draft.extend], rfl, ?_⟩
      rw [List.append_assoc, run, List.cons_append, run_header shape, lines.run]

theorem OpenMethod.run_label {front : List Line} {header m : Line} {b : Body} {done : List Body}
    {label : Label} (method : OpenMethod front header b done) (above : Tells m.text (.label label))
    (rest : List Line) :
    ∃ (finished : Array Draft) (d : Draft), d.body = b ∧ d.line = header.number ∧
      Reader.run {} (front ++ [m] ++ rest) =
        (inside finished d (some ⟨label, m.number⟩)).run rest := by
  obtain ⟨finished, d, given, line, run⟩ := method.run (m :: rest)
  refine ⟨finished, d, given, line, ?_⟩
  rw [List.append_assoc, List.singleton_append, run, Reader.run,
    step_label none (read_eq_iff_tells.mpr above)]

theorem Blames.run {before : List Line} {l : Line} {e : ReadError} (blame : Blames before l e)
    (after : List Line) : ∃ stopped, Reader.run {} (before ++ l :: after) = (stopped, some e) := by
  cases blame with
  | noHeader methods other =>
      obtain ⟨drafts, -, run⟩ := methods.run #[] (l :: after)
      have none_ : Header.read? l.text = none := by
        rw [Option.eq_none_iff_forall_ne_some]
        intro header found
        obtain ⟨name, params, shape, -⟩ := read?_eq_some_iff.mp found
        exact other name params shape
      refine ⟨{ finished := drafts }, ?_⟩
      rw [run, Reader.run]
      simp only [Reader.step, Reader.openMethod, none_]
  | @secondLabel _ _ m _ _ _ label _ method above labelled =>
      obtain ⟨finished, d, -, -, run⟩ := method.run_label above (l :: after)
      refine ⟨inside finished d (some ⟨label, m.number⟩), run.trans ?_⟩
      cases labelled with
      | alone tells => rw [Reader.run, step_label _ (read_eq_iff_tells.mpr tells)]
      | first tells => rw [Reader.run, step_instruction _ (read_eq_iff_tells.mpr tells)]
  | @lastLabel _ _ m _ _ _ label method above brace =>
      obtain ⟨finished, d, -, -, run⟩ := method.run_label above (l :: after)
      refine ⟨inside finished d (some ⟨label, m.number⟩), run.trans ?_⟩
      rw [Reader.run, step_close _ (read_eq_iff_tells.mpr (.close brace))]

theorem Unclosed.run {lines : List Line} {header : Line} {name : String}
    (unclosed : Unclosed lines header name) :
    ∃ r, Reader.run {} lines = (r, none) ∧
      r.endFault? = some ⟨header.number, .neverClosed name⟩ := by
  cases unclosed with
  | body method =>
      obtain ⟨finished, d, rfl, line, run⟩ := method.run []
      rw [List.append_nil] at run
      exact ⟨inside finished d none, run, by rw [← line]; rfl⟩
  | label method above =>
      obtain ⟨finished, d, rfl, line, run⟩ := method.run_label above []
      rw [List.append_nil] at run
      exact ⟨inside finished d _, run, by rw [← line]; rfl⟩

/-! What is read, and what is reported. -/

theorem Methods.readLines {texts : List (List Char)} {bodies : List Body}
    (methods : Methods (spokenLines texts) bodies) : readLines texts = .ok bodies := by
  obtain ⟨drafts, contents, run⟩ := methods.run #[] []
  rw [List.append_nil] at run
  rw [Listing.readLines, run]
  simpa [Reader.run, Reader.endFault?] using contents

theorem Blames.readLines {texts : List (List Char)} {before after : List Line} {l : Line}
    {e : ReadError} (shape : spokenLines texts = before ++ l :: after) (blame : Blames before l e) :
    readLines texts = .error e := by
  obtain ⟨stopped, run⟩ := blame.run after
  rw [Listing.readLines, shape, run]

theorem Unclosed.readLines {texts : List (List Char)} {header : Line} {name : String}
    (unclosed : Unclosed (spokenLines texts) header name) :
    readLines texts = .error ⟨header.number, .neverClosed name⟩ := by
  obtain ⟨r, run, fault⟩ := unclosed.run
  simp only [Listing.readLines, run, fault]

theorem Blames.begins {before : List Line} {l : Line} {e : ReadError} (blame : Blames before l e) :
    Begins before := by
  cases blame with
  | noHeader methods _ => exact ⟨[], _, by rwa [List.append_nil]⟩
  | secondLabel method above _ => exact method.begins_label above
  | lastLabel method above _ => exact method.begins_label above

/-- No listing starts with a line that is to blame and the lines before it. -/
theorem Blames.not_begins {before : List Line} {l : Line} {e : ReadError}
    (blame : Blames before l e) : ¬ Begins (before ++ [l]) := by
  rintro ⟨more, bodies, methods⟩
  obtain ⟨drafts, -, accepted⟩ := methods.run #[] []
  obtain ⟨stopped, refused⟩ := blame.run more
  simp [Reader.run, refused] at accepted

theorem Unclosed.begins {lines : List Line} {header : Line} {name : String}
    (unclosed : Unclosed lines header name) : Begins lines := by
  cases unclosed with
  | body method => exact method.begins
  | label method above => exact method.begins_label above

theorem readLines_eq_ok_iff {texts : List (List Char)} {bodies : List Body} :
    readLines texts = .ok bodies ↔ Methods (spokenLines texts) bodies := by
  refine ⟨fun found => ?_, Methods.readLines⟩
  cases progress (spokenLines texts) with
  | complete methods =>
      cases found.symm.trans methods.readLines
      exact methods
  | inside method => cases found.symm.trans (Unclosed.body method).readLines
  | waiting shape method above =>
      have unclosed := shape ▸ Unclosed.label method above
      cases found.symm.trans unclosed.readLines
  | failed shape blame => cases found.symm.trans (blame.readLines shape)

theorem readLines_eq_error_iff {texts : List (List Char)} {e : ReadError} :
    readLines texts = .error e ↔ FirstFault (spokenLines texts) e := by
  constructor
  · intro found
    cases progress (spokenLines texts) with
    | complete methods => cases found.symm.trans methods.readLines
    | inside method =>
        cases found.symm.trans (Unclosed.body method).readLines
        exact .ending method.begins (.body method)
    | waiting shape method above =>
        have unclosed := shape ▸ Unclosed.label method above
        cases found.symm.trans unclosed.readLines
        exact .ending unclosed.begins unclosed
    | failed shape blame =>
        cases found.symm.trans (blame.readLines shape)
        exact .line shape blame.begins blame.not_begins blame
  · intro fault
    cases fault with
    | line shape _ _ blame => exact blame.readLines shape
    | ending _ unclosed => exact unclosed.readLines

theorem ofList_bodies (p : Program) : Program.ofList p.bodies = p := by
  simp [Program.ofList, Program.bodies, Table.ofList, Table.values]

/-- A text is read exactly if its lines are a listing, and then gives the methods
of the listing. Otherwise the first fault of its lines is reported. -/
theorem reads_listings_exactly (text : String) :
    ∃ lines, LinesOf text lines ∧ (∀ p, read text = .ok p ↔ Methods lines p.bodies) ∧
      ∀ e, read text = .error e ↔ FirstFault lines e := by
  refine ⟨_, linesOf_spokenLines text, ?_, ?_⟩
  · intro p
    rw [← readLines_eq_ok_iff, read]
    cases readLines (textLines text) with
    | ok bodies =>
        rw [Except.map, Except.ok.injEq, Except.ok.injEq]
        constructor
        · rintro rfl
          exact (Program.bodies_ofList bodies).symm
        · rintro rfl
          exact ofList_bodies p
    | error e => simp [Except.map]
  · intro e
    rw [← readLines_eq_error_iff, read]
    cases readLines (textLines text) with
    | ok bodies => simp [Except.map]
    | error e => simp [Except.map]

example : read "method m() \x7b\n  // no instruction\n  L:\n\x7d\n" =
    .error ⟨3, .labelWithoutInstruction ⟨"L"⟩⟩ := by rfl

end FlowGraph.Listing
