import Straightline.Policy

/-!
# Scheduling

Before anything is scheduled, the independent variables take the slots from one on, in roster
order, and every requested node that has no slot yet takes the next one. A slot taken by a request
belongs to the first output position that asked for it.

Then the stored nodes are put in an evaluation order. The outputs are taken in turn and the graph
below each is walked with an explicit stack of frames: the operands of a node are finished, in
order, before the node is. When a node is reached through an operand for the first time it is
decided whether it is stored: an output always is, any other node if the policy asks for it. A
stored node joins the queue, its rank is its place there, and it takes the next free slot unless one
was reserved.
-/

namespace Straightline

/-- Slots that are fixed before scheduling. -/
structure Reservation where
  /-- The slot of a node. -/
  slots : Table Nat := ∅
  /-- The output position that owns a slot. -/
  owners : Table (Option Nat) := ∅
  /-- The last slot taken. -/
  lastId : Nat := 0

namespace Reservation

/-- Give the next slot to an independent variable. -/
def addIndependent (r : Reservation) (id : NodeId) : Reservation :=
  { r with slots := r.slots.set id (r.lastId + 1), lastId := r.lastId + 1 }

/-- Give the next slot to the node requested at an output position, unless it has one. -/
def addOutput (r : Reservation) (id : NodeId) (index : Nat) : Reservation :=
  if r.slots.get id = 0 then
    { slots := r.slots.set id (r.lastId + 1)
      owners := r.owners.set (r.lastId + 1) (some index)
      lastId := r.lastId + 1 }
  else r

/-- Give slots to the nodes among the outputs, counting positions from a first one. -/
def addOutputs {α : Type} : List (Arg α) → Nat → Reservation → Reservation
  | [], _, r => r
  | .const _ :: rest, index, r => addOutputs rest (index + 1) r
  | .node id :: rest, index, r => addOutputs rest (index + 1) (r.addOutput id index)

/-- The slots of a roster and of requested outputs, after what is reserved already. -/
def make {α : Type} (roster : List NodeId) (outputs : List (Arg α)) (start : Reservation := {}) :
    Reservation :=
  addOutputs outputs 0 (roster.foldl addIndependent start)

end Reservation

/-- A node under way: the operand to look at next, and whether that operand was walked. -/
structure Frame where
  /-- The node. -/
  node : NodeId
  /-- The position of the next operand. -/
  arg : Nat := 0
  /-- Whether the operand at that position was walked already. -/
  descended : Bool := false
  deriving DecidableEq, Repr

/-- The state of scheduling. -/
structure Schedule where
  /-- How often a node was reached so far. -/
  uses : Table Nat := ∅
  /-- The stored nodes so far, in evaluation order. -/
  queue : Array NodeId := #[]
  /-- The ranks of the stored nodes. -/
  ranks : Table Nat := ∅
  /-- The slots issued so far. -/
  slots : Table Nat := ∅
  /-- The last slot issued. -/
  lastId : Nat := 0

namespace Schedule

variable {α : Type}

/-- Count one more use of a node. -/
def use (s : Schedule) (id : NodeId) : Schedule :=
  { s with uses := s.uses.set id (s.uses.get id + 1) }

/-- Append a node to the queue. -/
def enqueue (s : Schedule) (id : NodeId) : Schedule :=
  let s := { s with queue := s.queue.push id, ranks := s.ranks.set id (s.queue.size + 1) }
  if s.slots.get id = 0 then
    { s with slots := s.slots.set id (s.lastId + 1), lastId := s.lastId + 1 }
  else s

/-- Decide, at the first use of a node, whether it is stored. -/
def decideStorage (g : Graph α) (policy : Policy α) (refs : Table Nat) (parent : NodeId)
    (arg : Nat) (child : NodeId) (s : Schedule) : Schedule :=
  match g.node? child, g.operation? parent with
  | some node, some op =>
    if node.operation.opcode = .independent ∨ s.ranks.get child ≠ 0 then s
    else if s.slots.get child ≠ 0 || policy.stores node (refs.get child) ||
        policy.demands op.opcode arg then
      s.enqueue child
    else s
  | _, _ => s

/-- One step of the walk: leave a node without further operands, skip a constant, descend into a
node that was never reached, or count a use of a finished one. -/
def step (g : Graph α) (policy : Policy α) (refs : Table Nat) (frame : Frame)
    (below : List Frame) (s : Schedule) : List Frame × Schedule :=
  match (g.operands frame.node).drop frame.arg with
  | [] => (below, s)
  | .const _ :: _ => ({ frame with arg := frame.arg + 1 } :: below, s)
  | .node child :: _ =>
    if !frame.descended && s.uses.get child = 0 then
      ({ node := child } :: { frame with descended := true } :: below, s)
    else
      let first := s.uses.get child = 0
      let s := s.use child
      let s := if first then s.decideStorage g policy refs frame.node frame.arg child else s
      ({ frame with arg := frame.arg + 1, descended := false } :: below, s)

/-- Walk until the stack is empty, in at most the given number of steps. -/
def walk (g : Graph α) (policy : Policy α) (refs : Table Nat) :
    Nat → List Frame → Schedule → Schedule
  | 0, _, s => s
  | _ + 1, [], s => s
  | fuel + 1, frame :: below, s =>
    let (stack, s) := step g policy refs frame below s
    walk g policy refs fuel stack s

/-- Walk the graph below an output, in at most the given number of steps, and store the output. -/
def addOutput (g : Graph α) (policy : Policy α) (refs : Table Nat) (fuel : Nat) (s : Schedule)
    (id : NodeId) : Schedule :=
  let s := if s.uses.get id = 0 then walk g policy refs fuel [{ node := id }] s else s
  let s := s.use id
  if (g.operation? id).map Operation.opcode ≠ some .independent ∧ s.ranks.get id = 0 then
    s.enqueue id
  else s

/-- Schedule the outputs in turn, from reserved slots. A node that has a rank already is not stored
again. A walk takes at most two steps for each operand and one for each node. -/
def run (g : Graph α) (policy : Policy α) (refs : Table Nat) (slots : Table Nat) (lastId : Nat)
    (outputs : List (Arg α)) (ranks : Table Nat := ∅) : Schedule :=
  let fuel := 2 * g.operandCount + g.next
  (outputs.filterMap Arg.node?).foldl (addOutput g policy refs fuel)
    { ranks := ranks, slots := slots, lastId := lastId }

end Schedule

end Straightline
