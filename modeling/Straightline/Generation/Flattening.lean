import Straightline.Graph.Traversal

/-!
# Flattening of arithmetic chains

Flattening builds a second set of nodes beside the recorded ones, which it never changes. Nested
sums and differences become one additive chain, nested products and quotients one multiplicative
chain. An operand is spliced into the chain of its consumer only if nobody else reads it: it has
one reference and no slot. Copies without a slot disappear, and an independent variable stands for
itself. A flattened node takes over slot, rank, reference count and name of the recorded node it
stands for.
-/

namespace Straightline

/-- The terms of an operation of a family, as a chain. -/
def Operation.terms? {β : Type} (family : Family) : Operation β → Option (List (Sense × β))
  | .binary (.arith tag) l r =>
    if tag.family = family then some [(.direct, l), (tag.sense, r)] else none
  | .chain own terms => if own = family then some terms else none
  | _ => none

/-- The terms of a chain as they enter a chain through an operand of the given sense. -/
def Sense.through {β : Type} : Sense → List (Sense × β) → List (Sense × β)
  | .direct, terms => terms
  | .inverse, terms => terms.map fun t => (t.1.flip, t.2)

/-- The state of flattening. -/
structure Flattening (α : Type) where
  /-- The nodes built so far. -/
  nodes : Table (Option (Node α)) := ∅
  /-- How many nodes were built. -/
  count : Nat := 0
  /-- The next identifier to issue. -/
  next : NodeId
  /-- The operand that stands for a recorded node. -/
  images : Table (Option (Arg α)) := ∅
  /-- Slots of recorded and of built nodes. -/
  slots : Table Nat
  /-- Ranks of recorded and of built nodes. -/
  ranks : Table Nat
  /-- Reference counts of recorded and of built nodes. -/
  refs : Table Nat

namespace Flattening

variable {α : Type}

/-- The operand that stands for a recorded operand. -/
def image (f : Flattening α) : Arg α → Arg α
  | .const v => .const v
  | .node id => (f.images.get id).getD (.node id)

/-- Let an operand stand for a recorded node. -/
def remember (f : Flattening α) (id : NodeId) (arg : Arg α) : Flattening α :=
  { f with images := f.images.set id (some arg) }

/-- Let a built node, with a new operation, stand for a recorded node. -/
def assign (f : Flattening α) (id : NodeId) (name : Option String) (built : NodeId)
    (op : Operation (Arg α)) : Flattening α :=
  { f with
    nodes := f.nodes.set built (some { operation := op, name := name })
    images := f.images.set id (some (.node built))
    slots := f.slots.set built (f.slots.get id)
    ranks := f.ranks.set built (f.ranks.get id)
    refs := f.refs.set built (f.refs.get id) }

/-- Build a new node that stands for a recorded node. -/
def derive (f : Flattening α) (id : NodeId) (name : Option String) (op : Operation (Arg α)) :
    Flattening α :=
  { f with count := f.count + 1, next := f.next + 1 }.assign id name f.next op

/-- An operand that its consumer alone reads, possibly through copies that are not stored. -/
def isExclusive (g : Graph α) (f : Flattening α) : Nat → Arg α → Bool
  | 0, _ => false
  | _ + 1, .const _ => false
  | depth + 1, .node id =>
    if 1 < f.refs.get id || f.slots.get id ≠ 0 then false
    else
      match g.operation? id with
      | some (.copy x) => isExclusive g f depth x
      | _ => true

/-- The built node behind an operand, with its terms, if it can be spliced into a chain. -/
def spliceable? (g : Graph α) (f : Flattening α) (family : Family) (arg : Arg α) :
    Option (NodeId × List (Sense × Arg α)) := do
  let id ← (f.image arg).node?
  let node ← f.nodes.get id
  let terms ← node.operation.terms? family
  if f.isExclusive g (g.next + 1) arg then some (id, terms) else none

/-- Turn a built node into a chain. -/
def makeChain (f : Flattening α) (built : NodeId) (family : Family)
    (terms : List (Sense × Arg α)) : Flattening α :=
  { f with
    nodes := f.nodes.modify built
      (Option.map fun n => { n with operation := .chain family terms }) }

/-- Take a built node out, to be assigned anew. -/
def withdraw (f : Flattening α) (built : NodeId) : Flattening α :=
  { f with nodes := f.nodes.set built none }

@[simp] theorem assign_withdraw (f : Flattening α) (id : NodeId) (name : Option String)
    (built : NodeId) (op : Operation (Arg α)) :
    (f.withdraw built).assign id name built op = f.assign id name built op := by
  simp [withdraw, assign]

/-- Stand for an arithmetic node, splicing its operands where possible. The chain of the left
operand is extended in preference to the chain of the right one, and taken out for that, so that it
grows in place. -/
def combine (g : Graph α) (f : Flattening α) (id : NodeId) (name : Option String) (tag : Tag)
    (l r : Arg α) : Flattening α :=
  match spliceable? g f tag.family l, spliceable? g f tag.family r with
  | some (left, leftTerms), some (right, rightTerms) =>
    ((f.makeChain right tag.family rightTerms).withdraw left).assign id name left
      (.chain tag.family (leftTerms ++ tag.sense.through rightTerms))
  | some (left, leftTerms), none =>
    (f.withdraw left).assign id name left
      (.chain tag.family (leftTerms ++ [(tag.sense, f.image r)]))
  | none, some (right, rightTerms) =>
    f.assign id name right
      (.chain tag.family ((.direct, f.image l) :: tag.sense.through rightTerms))
  | none, none => f.derive id name (.binary (.arith tag) (f.image l) (f.image r))

/-- Stand for a recorded node whose operands are done. -/
def build (g : Graph α) (f : Flattening α) (id : NodeId) : Flattening α :=
  match g.node? id with
  | none => f
  | some node =>
    match node.operation with
    | .independent => f.remember id (.node id)
    | .copy x =>
      if f.slots.get id = 0 then f.remember id (f.image x)
      else f.derive id node.name (.copy (f.image x))
    | .binary (.arith tag) l r => f.combine g id node.name tag l r
    | op => f.derive id node.name (op.map f.image)

end Flattening

/-- Flatten the part of the graph that the outputs reach, and map the outputs into the flattened
graph. -/
def Graph.flatten {α : Type} (g : Graph α) (outputs : List (Arg α)) : List (Arg α) × Graph α :=
  let start : Flattening α :=
    { next := g.next, slots := g.pass.slots, ranks := g.pass.ranks, refs := g.pass.refs }
  let nodes := dependencyOrder g.references (g.next + 1) (outputs.filterMap Arg.node?)
  let f := nodes.foldl (Flattening.build g) start
  let flat : Flat α :=
    { nodes := f.nodes
      count := f.count
      order := g.pass.order.filterMap fun id => (f.image (.node id)).node?
      images := f.images }
  (outputs.map f.image,
    { g with
      next := f.next
      pass :=
        { g.pass with slots := f.slots, ranks := f.ranks, refs := f.refs, flat := some flat } })

end Straightline
