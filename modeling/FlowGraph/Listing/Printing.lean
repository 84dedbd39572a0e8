import FlowGraph.Program
import FlowGraph.Text.Escape

/-! Writing a listing. A method takes a header, one line for each instruction
and a closing line; a blank line stands between methods. Names, conditions and
values are written with groups for what a reader would not give back. Plain
text that a reader would take for something else gets one more group. -/
namespace FlowGraph.Listing
open FlowGraph.Text

/-- What follows the name characters and groups that a text starts with, the
latter entered when `inGroup` holds. A group that is not closed after
hexadecimal digits leaves nothing. -/
def afterName? : (inGroup : Bool) → List Char → Option (List Char)
  | false, '\\' :: '{' :: rest => afterName? true rest
  | false, c :: rest => if isNameChar c then afterName? false rest else some (c :: rest)
  | false, [] => some []
  | true, c :: rest =>
      if c = '}' then afterName? false rest
      else if isHexDigit c then afterName? true rest
      else none
  | true, [] => none

/-- Whether a line starts with a name and a colon, then a blank or nothing. -/
def startsWithLabel (line : List Char) : Bool :=
  match afterName? false line with
  | some (c :: rest) => c == ':' && rest.length + 1 < line.length && atWordEnd rest
  | _ => false

/-- Whether a line would not be read as a plain instruction. -/
def isMistaken (line : List Char) : Bool :=
  line == ['}'] || ['/', '/'].isPrefixOf line || (afterWord? "goto" line).isSome ||
    (afterWord? "if" line).isSome || (afterWord? "return" line).isSome || startsWithLabel line

/-- The place of the one more group: the first character that is neither a name
character nor a group already, or else the first of all. -/
def extraGroup (text : List Char) : Nat :=
  (text.zipIdx.findIdx? fun (c, i) =>
    !isNameChar c && !needsGroup (text.length - 1) i c).getD 0

/-- Writes the text of a plain instruction. -/
def escapePlain (text : List Char) : List Char :=
  if isMistaken (escapeText text) then
    escapeWith (fun i c => i == extraGroup text || needsGroup (text.length - 1) i c) text
  else escapeText text

def writeName (name : String) : List Char := escapeName name.toList

def writeOp : Op → List Char
  | .plain text => escapePlain text.toList
  | .goto target => "goto ".toList ++ writeName target.name
  | .branch condition target =>
      "if ".toList ++ escapeText condition.toList ++ " goto ".toList ++ writeName target.name
  | .ret none => "return".toList
  | .ret (some value) => "return ".toList ++ escapeText value.toList

/-- The line of an instruction. A label stands at its start, and an instruction
without one is indented. -/
def writeInstruction (i : Instruction) : List Char :=
  (match i.label with
    | some label => writeName label.name ++ ": ".toList
    | none => "    ".toList) ++ writeOp i.op

def writeHeader (b : Body) : List Char :=
  "method ".toList ++ writeName b.name ++ '(' ::
    (", ".toList.intercalate (b.params.map writeName) ++ ") \x7b".toList)

/-- The lines of a method. -/
def writeBody (b : Body) : List (List Char) :=
  writeHeader b :: b.instructions.map writeInstruction ++ [['}']]

/-- Lines as text, each ended by a line break. -/
def joinLines (lines : List (List Char)) : List Char := lines.flatMap (· ++ ['\n'])

def writeMethod (b : Body) : String := String.ofList (joinLines (writeBody b))

/-- Writes a program as a listing. -/
def write (p : Program) : String :=
  String.ofList (['\n'].intercalate (p.bodies.map fun b => joinLines (writeBody b)))

end FlowGraph.Listing
