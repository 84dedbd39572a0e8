import FlowGraph.Encoding.Datum
import FlowGraph.Graph.Basic
import FlowGraph.Program

/-! Values as plain data, and back. A record may name its fields or list them
in order, members it does not know are ignored, and only the label of an
instruction may be missing. A set of nodes is an ascending list; reading takes
the items in any order and any number. -/
namespace FlowGraph

namespace Label

def encode (l : Label) : Datum := .text l.name

def decode? (d : Datum) : Option Label := d.text?.map Label.mk

end Label

namespace Op

def encode : Op → Datum
  | .plain text => .record [("Plain", .text text)]
  | .goto target => .record [("Branch", .record [("target", target.encode)])]
  | .branch condition target =>
      .record [("CondBranch", .record [("cond", .text condition), ("target", target.encode)])]
  | .ret value => .record [("Return", Datum.ofOption .text value)]

/-- Reads the operation of one kind from what stands under the kind's name. -/
def decodeAs? (kind : String) (d : Datum) : Option Op :=
  match kind, d with
  | "Plain", d => d.text?.map .plain
  | "Branch", .record members =>
      ((Datum.member? members "target").bind Label.decode?).map .goto
  | "CondBranch", .record members =>
      match (Datum.member? members "cond").bind Datum.text?,
        (Datum.member? members "target").bind Label.decode? with
      | some condition, some target => some (.branch condition target)
      | _, _ => none
  | "Return", d => (d.optional? Datum.text?).map .ret
  | _, _ => none

def decode? : Datum → Option Op
  | .record [(kind, d)] => decodeAs? kind d
  | _ => none

end Op

namespace Instruction

def encode (i : Instruction) : Datum :=
  .record [("label", Datum.ofOption Label.encode i.label), ("kind", i.op.encode)]

def decode? (d : Datum) : Option Instruction :=
  match d.fields? ["label", "kind"] with
  | some [label, some op] =>
      match (label.getD .null).optional? Label.decode?, Op.decode? op with
      | some label, some op => some ⟨label, op⟩
      | _, _ => none
  | _ => none

def encodeAll (is : List Instruction) : Datum := .list (is.map encode)

def decodeAll? (d : Datum) : Option (List Instruction) := d.list? decode?

end Instruction

namespace Body

def encode (b : Body) : Datum :=
  .record [("name", .text b.name), ("params", .list (b.params.map .text)),
    ("insts", Instruction.encodeAll b.instructions)]

def decode? (d : Datum) : Option Body :=
  match d.fields? ["name", "params", "insts"] with
  | some [some name, some params, some instructions] =>
      match name.text?, params.list? Datum.text?, Instruction.decodeAll? instructions with
      | some name, some params, some instructions => some ⟨name, params, instructions⟩
      | _, _, _ => none
  | _ => none

end Body

namespace Table

variable {w : Nat} {α : Type}

def encode (item : α → Datum) (t : Table w α) : Datum :=
  .record [("storage", .list (t.values.map item))]

def decode? (item? : Datum → Option α) (d : Datum) : Option (Table w α) :=
  match d.fields? ["storage"] with
  | some [some items] => (items.list? item?).map ofList
  | _ => none

end Table

namespace Role

/-- The name of a role as plain data. -/
def code : Role → String
  | .enter => "Enter"
  | .exit => "Exit"
  | .block => "BasicBlock"

def ofCode? : String → Option Role
  | "Enter" => some .enter
  | "Exit" => some .exit
  | "BasicBlock" => some .block
  | _ => none

def encode (r : Role) : Datum := .text r.code

/-- Reads a role, which may also be the name of the one member of a record. -/
def decode? : Datum → Option Role
  | .text code => ofCode? code
  | .record [(code, .null)] => ofCode? code
  | _ => none

end Role

namespace NodeSet

def encode (s : NodeSet) : Datum := .list (s.toList.map fun n => .int n.index)

def decode? (d : Datum) : Option NodeSet :=
  (d.list? fun item => (item.natBelow? (Key.count 32)).map Node.ofIndex).map KeySet.ofList

end NodeSet

namespace Vertex

def encode (v : Vertex) : Datum :=
  .record [("kind", v.role.encode), ("insts", Instruction.encodeAll v.instructions),
    ("preds", NodeSet.encode v.preds), ("succs", NodeSet.encode v.succs)]

def decode? (d : Datum) : Option Vertex :=
  match d.fields? ["kind", "insts", "preds", "succs"] with
  | some [some role, some instructions, some preds, some succs] =>
      match Role.decode? role, Instruction.decodeAll? instructions, NodeSet.decode? preds,
        NodeSet.decode? succs with
      | some role, some instructions, some preds, some succs =>
          some ⟨role, instructions, preds, succs⟩
      | _, _, _, _ => none
  | _ => none

end Vertex

namespace Graph

def encode (g : Graph) : Datum := .record [("nodes", g.vertices.encode Vertex.encode)]

def decode? (d : Datum) : Option Graph :=
  match d.fields? ["nodes"] with
  | some [some vertices] => (Table.decode? Vertex.decode? vertices).map Graph.mk
  | _ => none

end Graph
end FlowGraph
