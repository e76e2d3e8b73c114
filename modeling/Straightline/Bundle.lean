import Straightline.Graph.Basic

/-!
# Bundles

A bundle is what a generation pass hands to a renderer or to a compiler: the prepared graph, the
outputs in it, and the names to use. A naming gives the identifiers of a generated program: of an
independent variable by its roster position, of an output by its position, and of a temporary by its
offset. A display name attached to a node may take part.
-/

namespace Straightline

/-- The identifiers of a generated program. -/
structure Naming where
  /-- The independent variable at a roster position, with its display name. -/
  independent : Nat → Option String → String
  /-- The output at a position. -/
  dependent : Nat → String
  /-- The temporary at an offset, with the display name of the value. -/
  temporary : Nat → Option String → String
  /-- The array that holds the temporaries, if they live in one. -/
  array : Option String

namespace Naming

/-- An element of an array. -/
def element (array : String) (index : Nat) : String := array ++ "[" ++ toString index ++ "]"

/-- Elements of three arrays. A display name takes precedence for an independent variable only,
since the slot of a temporary may hold values with different names. -/
def arrays (dependent independent temporary : String) : Naming where
  independent index display := display.getD (element independent index)
  dependent := element dependent
  temporary index _ := element temporary index
  array := some temporary

/-- The arrays `y`, `x` and `v`. -/
def standard : Naming := arrays "y" "x" "v"

/-- Numbered identifiers `in`, `out` and `tmp` without an array. The display name of a temporary
is appended to its number. -/
def numbered : Naming where
  independent index display := display.getD ("in" ++ toString index)
  dependent index := "out" ++ toString index
  temporary index display :=
    "tmp" ++ toString index ++ (display.map ("_" ++ ·)).getD ""
  array := none

end Naming

/-- The result of a generation pass. -/
structure Bundle (α : Type) where
  /-- The prepared graph. -/
  graph : Graph α
  /-- The outputs, flattened if the graph is. -/
  outputs : List (Arg α)
  /-- The names of the generated variables. -/
  naming : Naming

namespace Bundle

variable {α : Type}

/-- Whether the graph was flattened. -/
def isOptimized (b : Bundle α) : Bool := b.graph.pass.flat.isSome

/-- The number of different slots of temporaries. -/
def temporaryCount (b : Bundle α) : Nat :=
  b.graph.pass.lastId + 1 - b.graph.pass.firstTemporary

/-- The output position for which the slot of a node was reserved. -/
def dependentIndex? (b : Bundle α) (id : NodeId) : Option Nat :=
  if b.graph.contains id then b.graph.pass.owners.get (b.graph.slot id) else none

/-- The identifier of a stored node, none for a node that is written in place. -/
def variableName? (b : Bundle α) (id : NodeId) : Option String := do
  let node ← b.graph.node? id
  let slot := b.graph.slot id
  if slot = 0 then none
  else if slot ≤ b.graph.roster.length then
    some (b.naming.independent (slot - 1) node.name)
  else
    match b.dependentIndex? id with
    | some index => some (b.naming.dependent index)
    | none =>
      let first := b.graph.pass.firstTemporary
      if first ≤ slot then some (b.naming.temporary (slot - first) node.name) else none

end Bundle

end Straightline
