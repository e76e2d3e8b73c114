import Straightline.Operation
import Straightline.Table

/-!
# The operation graph

Nodes are found by an identifier that is never issued twice, so a reference that outlives its node
is recognised instead of meeting another node. Recorded nodes stay until the graph is reset. A
generation pass leaves its results in a `Pass`: where each value is stored, in which order, how
often it is used, and the nodes of the flattened graph if there is one. Beginning a new pass drops
all of that at once and leaves the recorded nodes as they are.
-/

namespace Straightline

/-- Identifiers of nodes. -/
abbrev NodeId := Nat

/-- An operand of a node: a reference to another node or a constant. -/
inductive Arg (α : Type) where
  /-- The value of a node. -/
  | node (id : NodeId)
  /-- A constant. -/
  | const (value : α)
  deriving DecidableEq, Repr

namespace Arg

variable {α : Type}

/-- The node an operand refers to. -/
def node? : Arg α → Option NodeId
  | node id => some id
  | const _ => none

/-- The constant an operand holds. -/
def const? : Arg α → Option α
  | node _ => none
  | const value => some value

end Arg

/-- The nodes among the operands, in operand order. -/
def Operation.references {α : Type} (op : Operation (Arg α)) : List NodeId :=
  op.operands.filterMap Arg.node?

/-- A node: an operation on earlier values, and the display name given to it. -/
structure Node (α : Type) where
  /-- The operation with its operands. -/
  operation : Operation (Arg α)
  /-- The display name. -/
  name : Option String := none
  deriving Repr

/-- The flattened graph of a pass. -/
structure Flat (α : Type) where
  /-- The nodes built by flattening. -/
  nodes : Table (Option (Node α)) := ∅
  /-- How many nodes were built. -/
  count : Nat := 0
  /-- The evaluation order over flattened nodes. -/
  order : List NodeId := []
  /-- The operand that stands for a recorded node. -/
  images : Table (Option (Arg α)) := ∅

/-- The results of a generation pass. Slots, ranks and counts of a node are zero until assigned. -/
structure Pass (α : Type) where
  /-- Where the value of a node is stored. -/
  slots : Table Nat := ∅
  /-- The position of a node in the evaluation order, from one. -/
  ranks : Table Nat := ∅
  /-- How often a node is used by the requested outputs. -/
  refs : Table Nat := ∅
  /-- The rank of the last step that reads a node. -/
  lastUses : Table Nat := ∅
  /-- The output position for which a slot was reserved. -/
  owners : Table (Option Nat) := ∅
  /-- The recorded nodes that are stored, in evaluation order. -/
  order : List NodeId := []
  /-- The flattened graph, if the pass built one. -/
  flat : Option (Flat α) := none
  /-- The last slot issued. -/
  lastId : Nat := 0
  /-- The first slot of a temporary, zero before slots are assigned. -/
  firstTemporary : Nat := 0

/-- An operation graph. -/
structure Graph (α : Type) where
  /-- The nodes recorded by building expressions. -/
  recorded : Table (Option (Node α)) := ∅
  /-- The next identifier to issue. -/
  next : NodeId := 0
  /-- How many nodes are recorded. -/
  count : Nat := 0
  /-- The independent variables in creation order. -/
  roster : List NodeId := []
  /-- The results of the latest generation pass. -/
  pass : Pass α := {}

namespace Graph

variable {α : Type}

instance : Inhabited (Graph α) := ⟨{}⟩

/-- The live node behind an identifier, recorded or flattened. -/
def node? (g : Graph α) (id : NodeId) : Option (Node α) :=
  (g.recorded.get id).or (g.pass.flat.bind fun flat => flat.nodes.get id)

/-- Whether an identifier belongs to a live node. -/
def contains (g : Graph α) (id : NodeId) : Bool := (g.node? id).isSome

/-- The operation of a live node. -/
def operation? (g : Graph α) (id : NodeId) : Option (Operation (Arg α)) :=
  (g.node? id).map Node.operation

/-- The nodes that a node refers to, none if the node is not live. -/
def references (g : Graph α) (id : NodeId) : List NodeId :=
  ((g.operation? id).map Operation.references).getD []

/-- The operands of a node, none if the node is not live. -/
def operands (g : Graph α) (id : NodeId) : List (Arg α) :=
  ((g.operation? id).map Operation.operands).getD []

/-- How many operands all nodes hold together. -/
def operandCount (g : Graph α) : Nat :=
  (List.range g.next).foldl (fun n id => n + (g.operands id).length) 0

/-- How many nodes flattening built in the latest pass. -/
def flatCount (g : Graph α) : Nat := (g.pass.flat.map Flat.count).getD 0

/-- The stored nodes in their final evaluation order. -/
def order (g : Graph α) : List NodeId := (g.pass.flat.map Flat.order).getD g.pass.order

/-- The flattened node that stands for a recorded node. -/
def counterpart? (g : Graph α) (id : NodeId) : Option NodeId :=
  g.pass.flat.bind fun flat => (flat.images.get id).bind Arg.node?

/-- The slot of a node, zero if it has none. -/
def slot (g : Graph α) (id : NodeId) : Nat := g.pass.slots.get id

/-- The position of a node in the roster. -/
def rosterIndex? (g : Graph α) (id : NodeId) : Option Nat := g.roster.idxOf? id

/-- The node holds a slot of an independent variable. -/
def isIndependent (g : Graph α) (id : NodeId) : Bool :=
  0 < g.slot id && g.slot id ≤ g.roster.length

/-- The node holds a slot of a temporary. -/
def isTemporary (g : Graph α) (id : NodeId) : Bool :=
  0 < g.pass.firstTemporary && g.pass.firstTemporary ≤ g.slot id

/-- Record a new node. -/
def record (g : Graph α) (op : Operation (Arg α)) : NodeId × Graph α :=
  (g.next,
    { g with
      recorded := g.recorded.set g.next (some { operation := op })
      next := g.next + 1
      count := g.count + 1 })

/-- Record a new independent variable at the end of the roster. -/
def addIndependent (g : Graph α) : NodeId × Graph α :=
  let (id, g) := g.record .independent
  (id, { g with roster := g.roster ++ [id] })

/-- Give a display name to a live node. -/
def setName (g : Graph α) (id : NodeId) (name : String) : Graph α :=
  let rename : Option (Node α) → Option (Node α) := Option.map fun n => { n with name := some name }
  match g.recorded.get id with
  | some _ => { g with recorded := g.recorded.modify id rename }
  | none =>
    let flat := g.pass.flat.map fun flat => { flat with nodes := flat.nodes.modify id rename }
    { g with pass := { g.pass with flat := flat } }

/-- Turn the independent variable at a roster position into a copy of a solved value. References
to it stay valid; the other independent variables keep their order. -/
def eliminate (g : Graph α) (index : Nat) (target : NodeId) (solved : Arg α) : Graph α :=
  { g with
    recorded := g.recorded.set target (some { operation := .copy solved })
    roster := g.roster.eraseIdx index
    pass := { g.pass with slots := g.pass.slots.set target 0 } }

/-- Release every node. Identifiers are not issued again. -/
def reset (g : Graph α) : Graph α := { next := g.next }

end Graph

end Straightline
