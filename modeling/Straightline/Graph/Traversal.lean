import Straightline.Graph.Basic

/-!
# Traversals

Walks over the nodes that can be reached from given roots. `dependencyOrder` lists a node after
everything it depends on, and takes the dependencies as a function, so that a caller can stop at
chosen nodes. `breadthFirst` lists the roots first and then their dependencies level by level.

`countReferences` counts how often a node is used: one reference for every output position that
requests it and one for every operand, of a node that the outputs reach, that refers to it. The
count is taken with a work stack: a node is counted each time it is popped, and its references are
pushed the first time only.
-/

namespace Straightline

/-- The state of a depth-first walk. -/
structure Walk where
  /-- The nodes that are finished. -/
  seen : Table Bool := ∅
  /-- The finished nodes, dependencies first. -/
  finished : Array NodeId := #[]

/-- Finish a node after its dependencies. The first argument bounds the depth of the walk. -/
def Walk.visit (dependencies : NodeId → List NodeId) : Nat → NodeId → Walk → Walk
  | 0, _, w => w
  | depth + 1, id, w =>
    if w.seen.get id then w
    else
      let w := (dependencies id).foldl (fun w child => visit dependencies depth child w) w
      { seen := w.seen.set id true, finished := w.finished.push id }

/-- The nodes that can be reached from the roots within a depth, each after its dependencies. -/
def dependencyOrder (dependencies : NodeId → List NodeId) (depth : Nat) (roots : List NodeId) :
    List NodeId :=
  (roots.foldl (fun w id => Walk.visit dependencies depth id w) {}).finished.toList

/-- The state of a breadth-first walk. -/
structure Level where
  /-- The nodes that are listed. -/
  seen : Table Bool := ∅
  /-- The listed nodes. -/
  listed : Array NodeId := #[]

/-- List a node unless it is listed already. -/
def Level.add (l : Level) (id : NodeId) : Level :=
  if l.seen.get id then l else { seen := l.seen.set id true, listed := l.listed.push id }

/-- Extend a listing by the dependencies of its nodes, from a position on. -/
def Level.extend (dependencies : NodeId → List NodeId) : Nat → Nat → Level → Level
  | 0, _, l => l
  | fuel + 1, position, l =>
    match l.listed[position]? with
    | none => l
    | some id => extend dependencies fuel (position + 1) ((dependencies id).foldl Level.add l)

/-- The seeds without repetitions, followed by what they depend on, level by level. -/
def Graph.breadthFirst {α : Type} (g : Graph α) (seeds : List NodeId) : List NodeId :=
  (Level.extend g.references (g.next + seeds.length) 0 (seeds.foldl Level.add {})).listed.toList

namespace References

/-- Count references until the stack is empty or a released node is on top of it, in at most the
given number of steps. The rest of the stack is returned with the counts. -/
def count (references? : NodeId → Option (List NodeId)) :
    Nat → List NodeId → Table Nat → List NodeId × Table Nat
  | 0, stack, refs => (stack, refs)
  | _ + 1, [], refs => ([], refs)
  | fuel + 1, id :: stack, refs =>
    match references? id with
    | none => (id :: stack, refs)
    | some children =>
      let stack := if refs.get id = 0 then children.reverse ++ stack else stack
      count references? fuel stack (refs.set id (refs.get id + 1))

end References

/-- The reference counts of a graph for requested outputs, added to counts that stand already. The
stack that is left over is empty unless a reference leads to a released node. -/
def Graph.countReferences {α : Type} (g : Graph α) (outputs : List (Arg α))
    (refs : Table Nat := ∅) : List NodeId × Table Nat :=
  let roots := outputs.filterMap Arg.node?
  References.count (fun id => (g.operation? id).map Operation.references)
    (roots.length + g.operandCount) roots.reverse refs

end Straightline
