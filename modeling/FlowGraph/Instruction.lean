/-! Labels and three-address instructions. An instruction is an operation with
an optional label; only the operation's effect on control is looked at, all
other text is kept as it is. -/
namespace FlowGraph

/-- A name that an instruction may carry and a branch may jump to. -/
@[ext]
structure Label where
  name : String
deriving DecidableEq

namespace Label

/-- Labels are ordered by the code points of their names. -/
instance : LT Label := ⟨fun a b => a.name < b.name⟩

instance : DecidableLT Label := fun a b => inferInstanceAs (Decidable (a.name < b.name))

/-- Puts a label into an ascending list, unless the list has it already. -/
def insertAscending (l : Label) : List Label → List Label
  | [] => [l]
  | m :: rest =>
      if l < m then l :: m :: rest
      else if l = m then m :: rest
      else m :: insertAscending l rest

/-- The distinct labels of a list in ascending order. -/
def ascending (ls : List Label) : List Label := ls.foldl (fun sorted l => insertAscending l sorted) []

end Label

/-- What an instruction does, as far as control is concerned. -/
inductive Op where
  | plain (text : String)
  | goto (target : Label)
  | branch (condition : String) (target : Label)
  | ret (value : Option String)
deriving DecidableEq

namespace Op

/-- The label that control may jump to. -/
def target? : Op → Option Label
  | .goto target | .branch _ target => some target
  | .plain _ | .ret _ => none

def isReturn : Op → Bool
  | .ret _ => true
  | _ => false

def display : Op → String
  | .plain text => text
  | .goto target => "goto " ++ target.name
  | .branch condition target => "if " ++ condition ++ " goto " ++ target.name
  | .ret none => "return"
  | .ret (some value) => "return " ++ value

end Op

@[ext]
structure Instruction where
  label : Option Label
  op : Op
deriving DecidableEq

namespace Instruction

/-- Gives an instruction a label in place of any it has. -/
def labelled (i : Instruction) (l : Label) : Instruction := { i with label := some l }

def target? (i : Instruction) : Option Label := i.op.target?

def isBranch (i : Instruction) : Bool := i.target?.isSome

def isReturn (i : Instruction) : Bool := i.op.isReturn

/-- Whether control may go elsewhere than to the next instruction. -/
def isTerminator (i : Instruction) : Bool := i.isBranch || i.isReturn

def display (i : Instruction) : String :=
  match i.label with
  | some l => l.name ++ ": " ++ i.op.display
  | none => i.op.display

end Instruction
end FlowGraph
