import FlowGraph.Listing.Grammar
import FlowGraph.Log
import FlowGraph.Program

/-! Reading a listing. Lines are taken one by one; a reader remembers the
methods that are complete, the method that is open, and in it a label that
waits for its instruction. The first line that fits nowhere ends the reading,
and the methods opened until then can still be told. -/
namespace FlowGraph.Listing
open FlowGraph.Text

/-- Why a listing cannot be read. -/
inductive ReadFault where
  | expectedHeader (found : String)
  | labelWithoutInstruction (label : Label)
  | labelAfterLabel (second first : Label) (firstLine : Nat)
  | neverClosed (name : String)
deriving DecidableEq

def ReadFault.message : ReadFault → String
  | .expectedHeader found => s!"expected `method`, found `{found}`"
  | .labelWithoutInstruction label => s!"label `{label.name}` has no instruction"
  | .labelAfterLabel second first firstLine =>
      s!"label `{second.name}` follows label `{first.name}` on line {firstLine} without an instruction"
  | .neverClosed name => s!"method `{name}` is never closed"

/-- A fault and the line, counted from 1, that it is reported at. -/
structure ReadError where
  line : Nat
  fault : ReadFault
deriving DecidableEq

def ReadError.message (e : ReadError) : String := s!"line {e.line}: {e.fault.message}"

/-- A line with its number, without the blanks at its ends. -/
structure Line where
  number : Nat
  text : List Char
deriving DecidableEq

/-- Blank lines and comments say nothing. -/
def Line.isSilent (l : Line) : Bool := l.text.isEmpty || ['/', '/'].isPrefixOf l.text

/-- The lines that say something. -/
def spokenLines (lines : List (List Char)) : List Line :=
  ((lines.zipIdx 1).map fun (text, number) => Line.mk number (trim text)).filter (!·.isSilent)

/-- A method as far as it has been read, and the line of its header. -/
structure Draft where
  line : Nat
  header : Header
  instructions : Array Instruction := #[]

def Draft.body (d : Draft) : Body := ⟨d.header.name, d.header.params, d.instructions.toList⟩

/-- A label on a line of its own, and the number of that line. -/
structure Pending where
  label : Label
  line : Nat

structure Reader where
  finished : Array Draft := #[]
  draft : Option Draft := none
  pending : Option Pending := none

namespace Reader

/-- Every method whose header has been read, in order. -/
def opened (r : Reader) : List Draft := r.finished.toList ++ r.draft.toList

/-- Reads a line outside of any method. -/
def openMethod (r : Reader) (l : Line) : Except ReadError Reader :=
  match Header.read? l.text with
  | some header => .ok { r with draft := some { line := l.number, header } }
  | none => .error ⟨l.number, .expectedHeader (String.ofList l.text)⟩

/-- Ends the open method. -/
def closeMethod (r : Reader) (draft : Draft) : Except ReadError Reader :=
  match r.pending with
  | some waiting => .error ⟨waiting.line, .labelWithoutInstruction waiting.label⟩
  | none => .ok { finished := r.finished.push draft }

/-- The label of a line, given the one on the line itself. A label that waits
must not be followed by another one. -/
def settleLabel (r : Reader) (l : Line) (label : Option Label) : Except ReadError (Option Label) :=
  match r.pending, label with
  | some waiting, some label => .error ⟨l.number, .labelAfterLabel label waiting.label waiting.line⟩
  | some waiting, none => .ok (some waiting.label)
  | none, label => .ok label

/-- Adds an instruction to the open method. -/
def addInstruction (r : Reader) (draft : Draft) (i : Instruction) : Reader :=
  { r with
    draft := some { draft with instructions := draft.instructions.push i }
    pending := none }

/-- Reads a line inside a method. -/
def readBodyLine (r : Reader) (draft : Draft) (l : Line) : Except ReadError Reader :=
  match BodyLine.read l.text with
  | .close => r.closeMethod draft
  | .label label =>
      match r.settleLabel l (some label) with
      | .error e => .error e
      | .ok _ => .ok { r with pending := some ⟨label, l.number⟩ }
  | .instruction label op =>
      match r.settleLabel l label with
      | .error e => .error e
      | .ok label => .ok (r.addInstruction draft ⟨label, op⟩)

def step (r : Reader) (l : Line) : Except ReadError Reader :=
  match r.draft with
  | none => r.openMethod l
  | some draft => r.readBodyLine draft l

/-- Reads lines until one does not fit. Returns the reader at that point and
the error, if there was one. -/
def run (r : Reader) : List Line → Reader × Option ReadError
  | [] => (r, none)
  | l :: rest =>
      match r.step l with
      | .ok next => next.run rest
      | .error e => (r, some e)

/-- Lines may be read in two goes. -/
theorem run_append (r : Reader) (first second : List Line) :
    r.run (first ++ second) =
      match r.run first with
      | (next, none) => next.run second
      | (stopped, some e) => (stopped, some e) := by
  induction first generalizing r with
  | nil => rfl
  | cons l rest ih =>
      simp only [List.cons_append, run]
      cases r.step l with
      | ok next => exact ih next
      | error e => rfl

/-- What is wrong when the lines end here. -/
def endFault? (r : Reader) : Option ReadError :=
  r.draft.map fun draft => ⟨draft.line, .neverClosed draft.header.name⟩

end Reader

/-- The methods of a list of lines. -/
def readLines (lines : List (List Char)) : Except ReadError (List Body) :=
  match Reader.run {} (spokenLines lines) with
  | (_, some e) => .error e
  | (r, none) =>
      match r.endFault? with
      | some e => .error e
      | none => .ok (r.finished.toList.map (·.body))

def textLines (text : String) : List (List Char) := text.toList.splitOn '\n'

/-- Reads a listing. -/
def read (text : String) : Except ReadError Program := (readLines (textLines text)).map Program.ofList

/-- What is told while a listing is read. -/
def readEvents (text : String) : List Event :=
  (Reader.run {} (spokenLines (textLines text))).1.opened.map fun draft =>
    .methodOpened draft.header.name draft.line

end FlowGraph.Listing
