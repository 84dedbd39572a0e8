import FlowGraph.Instruction

/-! What an instruction list means. A machine stands at a position of the list
or has left it. From a position it may go on to the next one, jump to the
position that carries a label, or leave; texts and conditions do not matter. -/
namespace FlowGraph.Machine

/-- Where the machine is. -/
inductive Point where
  | inside (position : Nat)
  | done
deriving DecidableEq

/-- A position, which past the last instruction is no longer inside. -/
def pointAt (is : List Instruction) (position : Nat) : Point :=
  if position < is.length then .inside position else .done

def start (is : List Instruction) : Point := pointAt is 0

/-- The position of the instruction that carries a label. -/
def positionOf? (is : List Instruction) (l : Label) : Option Nat :=
  is.findIdx? fun i => i.label == some l

/-- The machine may go on from an operation to the next instruction. -/
def goesOn : Op → Bool
  | .plain _ | .branch _ _ => true
  | .goto _ | .ret _ => false

/-- One step from a position. -/
inductive Step (is : List Instruction) : Nat → Point → Prop where
  | next {p : Nat} {i : Instruction} :
      is[p]? = some i → goesOn i.op = true → Step is p (pointAt is (p + 1))
  | jump {p q : Nat} {i : Instruction} {l : Label} :
      is[p]? = some i → i.target? = some l → positionOf? is l = some q → Step is p (.inside q)
  | leave {p : Nat} {i : Instruction} :
      is[p]? = some i → i.isReturn = true → Step is p .done

/-- A run between two points, with the positions that it executes. The machine
executes a position by stepping on from it. -/
inductive Run (step : Nat → Point → Prop) : Point → Point → List Nat → Prop where
  | stay (point : Point) : Run step point point []
  | step {p : Nat} {next last : Point} {rest : List Nat} :
      step p next → Run step next last rest → Run step (.inside p) last (p :: rest)

/-- The machine can come to a position from the start. -/
def Executes (is : List Instruction) (p : Nat) : Prop :=
  ∃ passed, Run (Step is) (start is) (.inside p) passed

end FlowGraph.Machine
