import FlowGraph.Instruction
import FlowGraph.Text.Escape

/-! The shapes of the lines of a listing. Each function looks at one line whose
blanks at both ends are gone. A header opens a method; a line of a body closes
the method, carries a label of its own, or holds an instruction. -/
namespace FlowGraph.Listing
open FlowGraph.Text

/-- Text with its groups resolved. -/
def resolved (cs : List Char) : String := String.ofList (unescape cs)

/-- What a header says. -/
structure Header where
  name : String
  params : List String
deriving DecidableEq

/-- The written name and the text between the parentheses of a header:
the word `method`, a name, parentheses, and an opening brace at the end. -/
def headerParts? (line : List Char) : Option (List Char × List Char) :=
  match afterWord? "method" line with
  | none => none
  | some rest =>
      let rest := trimStart rest
      let name := rest.takeWhile fun c => !isBlank c && c != '('
      match name, trimStart (rest.dropWhile fun c => !isBlank c && c != '(') with
      | _ :: _, '(' :: rest =>
          match rest.dropWhile (· != ')') with
          | ')' :: tail =>
              if trimStart tail = ['{'] then some (name, rest.takeWhile (· != ')')) else none
          | _ => none
      | _, _ => none

/-- Parameters are separated by commas; empty ones do not count. -/
def readParams (text : List Char) : List String :=
  (((text.splitOn ',').map trim).filter fun param => !param.isEmpty).map resolved

def Header.read? (line : List Char) : Option Header :=
  (headerParts? line).map fun (name, params) => ⟨resolved name, readParams params⟩

/-- Where a scan of a written name stands: between its pieces, after a
backslash, or among the digits of a group. -/
inductive NamePlace where
  | piece
  | brace
  | digits

/-- Whether a text is a sequence of name characters and groups of hexadecimal
digits. -/
def isWrittenName : NamePlace → List Char → Bool
  | .piece, [] => true
  | .piece, c :: rest =>
      if isNameChar c then isWrittenName .piece rest
      else c == '\\' && isWrittenName .brace rest
  | .brace, c :: rest => c == '{' && isWrittenName .digits rest
  | .digits, c :: rest =>
      if c = '}' then isWrittenName .piece rest
      else isHexDigit c && isWrittenName .digits rest
  | _, [] => false

/-- The written label and the text after its colon, which ends the line or is
followed by a blank. -/
def labelParts? (line : List Char) : Option (List Char × List Char) :=
  match line.takeWhile (· != ':'), line.dropWhile (· != ':') with
  | name, ':' :: rest =>
      if !name.isEmpty && isWrittenName .piece name && atWordEnd rest then some (name, rest)
      else none
  | _, _ => none

/-- The written target of a jump: the one word after `goto`. -/
def gotoTarget? (text : List Char) : Option (List Char) :=
  match afterWord? "goto" text with
  | none => none
  | some rest =>
      let target := trimStart rest
      if target.isEmpty || target.any isBlank then none else some target

/-- The condition between `if` and the last `goto`. A gap of blanks alone holds
a condition only if a blank is left for each side of it; then the condition is
the last blank but one. -/
def conditionIn? (gap : List Char) : Option (List Char) :=
  match trim gap with
  | [] =>
      match gap.reverse with
      | _ :: blank :: _ :: _ => some [blank]
      | _ => none
  | condition => some condition

/-- The written condition and target of a conditional jump: the word `if`, the
condition, the word `goto`, and one last word. -/
def branchParts? (text : List Char) : Option (List Char × List Char) :=
  match afterWord? "if" text with
  | none => none
  | some rest =>
      let (front, target) := spanEnd (fun c => !isBlank c) rest
      let (front, space) := spanEnd isBlank front
      let (gap, word) := spanEnd (fun c => !isBlank c) front
      if target.isEmpty || space.isEmpty || word != "goto".toList then none
      else (conditionIn? gap).map fun condition => (condition, target)

/-- What a return gives back: the text after `return`, if there is any. -/
def returnValue? (text : List Char) : Option (Option (List Char)) :=
  (afterWord? "return" text).map fun rest => if rest.isEmpty then none else some (trimStart rest)

/-- Reads the operation that a text spells. Text of no other shape is plain. -/
def readOp (text : List Char) : Op :=
  match gotoTarget? text with
  | some target => .goto ⟨resolved target⟩
  | none =>
      match branchParts? text with
      | some (condition, target) => .branch (resolved condition) ⟨resolved target⟩
      | none =>
          match returnValue? text with
          | some value => .ret (value.map resolved)
          | none => .plain (resolved text)

/-- What a line of a body says. -/
inductive BodyLine where
  | close
  | label (label : Label)
  | instruction (label : Option Label) (op : Op)
deriving DecidableEq

def BodyLine.read (line : List Char) : BodyLine :=
  if line = ['}'] then .close
  else
    match labelParts? line with
    | none => .instruction none (readOp line)
    | some (name, rest) =>
        match trimStart rest with
        | [] => .label ⟨resolved name⟩
        | text => .instruction (some ⟨resolved name⟩) (readOp text)

end FlowGraph.Listing
