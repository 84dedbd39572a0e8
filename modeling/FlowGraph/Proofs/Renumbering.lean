import FlowGraph.Proofs.ListingGrammar

/-! Reading does not depend on where lines stand. A reader keeps the numbers of
lines only to tell them in errors, and it does not look at finished methods again.
So lines that stand after other lines are read as on their own, once the methods
above them are closed. -/
namespace FlowGraph.Listing
open FlowGraph.Text

/-! Other numbers. -/

def Line.renumber (f : Nat → Nat) (l : Line) : Line := { l with number := f l.number }

def ReadFault.renumber (f : Nat → Nat) : ReadFault → ReadFault
  | .labelAfterLabel second first firstLine => .labelAfterLabel second first (f firstLine)
  | .expectedHeader found => .expectedHeader found
  | .labelWithoutInstruction label => .labelWithoutInstruction label
  | .neverClosed name => .neverClosed name

/-- The same error with every line that it tells numbered otherwise. -/
def ReadError.renumber (f : Nat → Nat) (e : ReadError) : ReadError :=
  ⟨f e.line, e.fault.renumber f⟩

def Draft.renumber (f : Nat → Nat) (d : Draft) : Draft := { d with line := f d.line }

def Pending.renumber (f : Nat → Nat) (p : Pending) : Pending := { p with line := f p.line }

/-- The reader that finished the methods `done` first and then read the same lines
under other numbers. -/
def Reader.rebase (f : Nat → Nat) (done : Array Draft) (r : Reader) : Reader where
  finished := done ++ r.finished.map (Draft.renumber f)
  draft := r.draft.map (Draft.renumber f)
  pending := r.pending.map (Pending.renumber f)

section Rebasing

variable (f : Nat → Nat) (done : Array Draft)

theorem Reader.rebase_start : Reader.rebase f done {} = { finished := done } := by
  simp [Reader.rebase]

theorem map_body_rebase (r : Reader) :
    (r.rebase f done).finished.toList.map (·.body) =
      done.toList.map (·.body) ++ r.finished.toList.map (·.body) := by
  simp [Reader.rebase, Draft.body, Draft.renumber]

theorem endFault?_rebase (r : Reader) :
    (r.rebase f done).endFault? = r.endFault?.map (ReadError.renumber f) := by
  simp only [Reader.endFault?, Reader.rebase, Option.map_map]
  rfl

theorem closeMethod_rebase (r : Reader) (d : Draft) :
    (r.rebase f done).closeMethod (d.renumber f) =
      ((r.closeMethod d).map (Reader.rebase f done)).mapError (ReadError.renumber f) := by
  cases waiting : r.pending with
  | none => simp [Reader.closeMethod, Reader.rebase, waiting, Except.map, Except.mapError]
  | some pending =>
      simp [Reader.closeMethod, Reader.rebase, waiting, Except.map, Except.mapError,
        Pending.renumber, ReadError.renumber, ReadFault.renumber]

theorem settleLabel_rebase (r : Reader) (l : Line) (label : Option Label) :
    (r.rebase f done).settleLabel (l.renumber f) label =
      (r.settleLabel l label).mapError (ReadError.renumber f) := by
  cases waiting : r.pending with
  | none => simp [Reader.settleLabel, Reader.rebase, waiting, Except.mapError]
  | some pending =>
      cases label <;>
        simp [Reader.settleLabel, Reader.rebase, waiting, Except.mapError, Line.renumber,
          Pending.renumber, ReadError.renumber, ReadFault.renumber]

theorem readBodyLine_rebase (r : Reader) (d : Draft) (l : Line) :
    (r.rebase f done).readBodyLine (d.renumber f) (l.renumber f) =
      ((r.readBodyLine d l).map (Reader.rebase f done)).mapError (ReadError.renumber f) := by
  simp only [Reader.readBodyLine, settleLabel_rebase, closeMethod_rebase]
  cases said : BodyLine.read l.text with
  | close => simp [Line.renumber, said]
  | label label =>
      simp only [Line.renumber, said]
      cases r.settleLabel l (some label) with
      | error e => rfl
      | ok _ => rfl
  | instruction label op =>
      simp only [Line.renumber, said]
      cases r.settleLabel l label with
      | error e => rfl
      | ok _ => rfl

theorem openMethod_rebase (r : Reader) (l : Line) :
    (r.rebase f done).openMethod (l.renumber f) =
      ((r.openMethod l).map (Reader.rebase f done)).mapError (ReadError.renumber f) := by
  simp only [Reader.openMethod, Line.renumber]
  cases Header.read? l.text with
  | none => rfl
  | some header => rfl

theorem step_rebase (r : Reader) (l : Line) :
    (r.rebase f done).step (l.renumber f) =
      ((r.step l).map (Reader.rebase f done)).mapError (ReadError.renumber f) := by
  cases open_ : r.draft with
  | none => simpa [Reader.step, open_, Reader.rebase] using openMethod_rebase f done r l
  | some d => simpa [Reader.step, open_, Reader.rebase] using readBodyLine_rebase f done r d l

theorem run_rebase (r : Reader) (lines : List Line) :
    (r.rebase f done).run (lines.map (Line.renumber f)) =
      ((r.run lines).1.rebase f done, (r.run lines).2.map (ReadError.renumber f)) := by
  induction lines generalizing r with
  | nil => rfl
  | cons l lines ih =>
      simp only [List.map_cons, Reader.run, step_rebase]
      cases r.step l with
      | ok next => exact ih next
      | error e => rfl

end Rebasing

/-! What comes of a run. -/

section Outcomes

variable {texts others : List (List Char)} {r : Reader} {e : ReadError}

theorem readLines_of_fault (run : Reader.run {} (spokenLines texts) = (r, some e)) :
    readLines texts = .error e := by
  rw [readLines, run]

theorem readLines_of_open (run : Reader.run {} (spokenLines texts) = (r, none))
    (ended : r.endFault? = some e) : readLines texts = .error e := by
  simp only [readLines, run, ended]

theorem readLines_of_closed (run : Reader.run {} (spokenLines texts) = (r, none))
    (ended : r.endFault? = none) : readLines texts = .ok (r.finished.toList.map (·.body)) := by
  simp only [readLines, run, ended]

/-- Lines that are read after the methods `done`, under other numbers, give the methods or the
error that they give on their own. -/
theorem readLines_of_rebased {f : Nat → Nat} {done : Array Draft}
    (same : Reader.run {} (spokenLines others) =
      Reader.run { finished := done } ((spokenLines texts).map (Line.renumber f))) :
    readLines others =
      ((readLines texts).map (done.toList.map (·.body) ++ ·)).mapError (ReadError.renumber f) := by
  rw [← Reader.rebase_start f done, run_rebase] at same
  cases run : Reader.run {} (spokenLines texts) with
  | mk r fault =>
      rw [run] at same
      cases fault with
      | some e =>
          rw [readLines_of_fault same, readLines_of_fault run]
          rfl
      | none =>
          have ends := endFault?_rebase f done r
          cases ended : r.endFault? with
          | some e =>
              rw [ended] at ends
              rw [readLines_of_open same ends, readLines_of_open run ended]
              rfl
          | none =>
              rw [ended] at ends
              rw [readLines_of_closed same ends, readLines_of_closed run ended, map_body_rebase]
              rfl

end Outcomes

/-! Lines in two parts. -/

/-- The lines that say something, numbered on from `number`. -/
def spokenFrom (number : Nat) (texts : List (List Char)) : List Line :=
  ((texts.zipIdx number).map fun p => Line.mk p.2 (trim p.1)).filter (!·.isSilent)

theorem spokenLines_eq (texts : List (List Char)) : spokenLines texts = spokenFrom 1 texts := rfl

theorem spokenFrom_cons (number : Nat) (text : List Char) (texts : List (List Char)) :
    spokenFrom number (text :: texts) =
      [Line.mk number (trim text)].filter (!·.isSilent) ++ spokenFrom (number + 1) texts := by
  rw [spokenFrom, List.zipIdx_cons, List.map_cons, ← List.singleton_append, List.filter_append]
  rfl

theorem filter_renumber (f : Nat → Nat) (lines : List Line) :
    (lines.map (Line.renumber f)).filter (!·.isSilent) =
      (lines.filter (!·.isSilent)).map (Line.renumber f) := by
  rw [List.filter_map]
  rfl

theorem spokenFrom_append (number : Nat) (front back : List (List Char)) :
    spokenFrom number (front ++ back) =
      spokenFrom number front ++ spokenFrom (number + front.length) back := by
  simp only [spokenFrom, List.zipIdx_append, List.map_append, List.filter_append]

theorem spokenFrom_add (number count : Nat) (texts : List (List Char)) :
    spokenFrom (number + count) texts =
      (spokenFrom number texts).map (Line.renumber (· + count)) := by
  induction texts generalizing number with
  | nil => rfl
  | cons text texts ih =>
      rw [spokenFrom_cons, spokenFrom_cons, List.map_append, ← filter_renumber, ← ih,
        Nat.add_right_comm]
      rfl

/-- Lines that are listings and lines after them are read one after the other, and
lines that have a fault have it whatever follows, unless it is that they end. -/
theorem reading_composes (front back : List (List Char)) :
    (∀ bodies, readLines front = .ok bodies →
      readLines (front ++ back) =
        ((readLines back).map (bodies ++ ·)).mapError (ReadError.renumber (· + front.length))) ∧
    (∀ e, readLines front = .error e → (∀ name, e.fault ≠ .neverClosed name) →
      readLines (front ++ back) = .error e) ∧
    ∀ a b : String, textLines a = front → textLines b = back →
      read (a ++ "\n" ++ b) = (readLines (front ++ back)).map Program.ofList := by
  have lines : spokenLines (front ++ back) =
      spokenLines front ++ (spokenLines back).map (Line.renumber (· + front.length)) := by
    rw [spokenLines_eq, spokenFrom_append, spokenFrom_add]
    rfl
  refine ⟨?_, ?_, ?_⟩
  · intro bodies found
    obtain ⟨drafts, contents, run⟩ := (readLines_eq_ok_iff.mp found).run #[]
      ((spokenLines back).map (Line.renumber (· + front.length)))
    rw [← lines] at run
    rw [readLines_of_rebased run, contents]
    rfl
  · intro e found other
    cases run : Reader.run {} (spokenLines front) with
    | mk r fault =>
        cases fault with
        | some e' =>
            cases found.symm.trans (readLines_of_fault run)
            apply readLines_of_fault (r := r)
            rw [lines, Reader.run_append, run]
        | none =>
            cases ended : r.endFault? with
            | none => cases found.symm.trans (readLines_of_closed run ended)
            | some e' =>
                cases found.symm.trans (readLines_of_open run ended)
                obtain ⟨d, -, rfl⟩ := Option.map_eq_some_iff.mp ended
                exact absurd rfl (other d.header.name)
  · rintro a b rfl rfl
    have parts : textLines (a ++ "\n" ++ b) = textLines a ++ textLines b := by
      simp [textLines, List.splitOn_append_cons_self]
    rw [read, parts]

/-- A method without instructions. -/
def sampleMethod : String := "method a() \x7b\n\x7d"

/-- A method with a label under a label. -/
def sampleLabels : String := "method b() \x7b\nL:\nM: x\n\x7d"

/-- The fault of the labels moves down with them, and is there whatever follows. -/
theorem samples_compose :
    readLines (textLines sampleMethod) = .ok [⟨"a", [], []⟩] ∧
      readLines (textLines sampleLabels) = .error ⟨3, .labelAfterLabel ⟨"M"⟩ ⟨"L"⟩ 2⟩ ∧
      read (sampleMethod ++ "\n" ++ sampleLabels) = .error ⟨5, .labelAfterLabel ⟨"M"⟩ ⟨"L"⟩ 4⟩ ∧
      read (sampleLabels ++ "\n" ++ sampleMethod) = .error ⟨3, .labelAfterLabel ⟨"M"⟩ ⟨"L"⟩ 2⟩ := by
  have accepted : readLines (textLines sampleMethod) = .ok [⟨"a", [], []⟩] := by rfl
  have refused : readLines (textLines sampleLabels) =
      .error ⟨3, .labelAfterLabel ⟨"M"⟩ ⟨"L"⟩ 2⟩ := by rfl
  refine ⟨accepted, refused, ?_, ?_⟩
  · obtain ⟨after, -, whole⟩ := reading_composes (textLines sampleMethod) (textLines sampleLabels)
    rw [whole _ _ rfl rfl, after _ accepted, refused]
    rfl
  · obtain ⟨-, before, whole⟩ := reading_composes (textLines sampleLabels) (textLines sampleMethod)
    rw [whole _ _ rfl rfl, before _ refused (by simp)]
    rfl

end FlowGraph.Listing
