/-! Plain data: what a data format such as JSON can hold, without its spelling.
The members of a record are looked up by name and their order says nothing. -/
namespace FlowGraph

inductive Datum where
  | null
  | bool (value : Bool)
  | int (value : Int)
  /-- A number written with a fraction or an exponent. -/
  | decimal (mantissa : Int) (places : Nat)
  | text (value : String)
  | list (items : List Datum)
  | record (members : List (String × Datum))
deriving Inhabited

namespace Datum

def member? (members : List (String × Datum)) (name : String) : Option Datum :=
  members.lookup name

def text? : Datum → Option String
  | .text value => some value
  | _ => none

/-- Reads every item of a list. -/
def list? {α : Type} (item? : Datum → Option α) : Datum → Option (List α)
  | .list items => items.mapM item?
  | _ => none

/-- Reads a value that may be absent. -/
def optional? {α : Type} (value? : Datum → Option α) : Datum → Option (Option α)
  | .null => some none
  | datum => (value? datum).map some

def ofOption {α : Type} (encode : α → Datum) : Option α → Datum
  | none => .null
  | some a => encode a

/-- The fields of a record in the order of `names`. A list of exactly as many
items is a record without names. -/
def fields? (names : List String) : Datum → Option (List (Option Datum))
  | .record members => some (names.map (member? members))
  | .list items => if items.length = names.length then some (items.map some) else none
  | _ => none

/-- A natural number below `bound`, written without a fraction. -/
def natBelow? (bound : Nat) : Datum → Option Nat
  | .int (.ofNat n) => if n < bound then some n else none
  | _ => none

end Datum
end FlowGraph
