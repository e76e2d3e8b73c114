import Straightline.Error
import Straightline.Scalar
import Straightline.Generation.Basic

/-!
# Workspaces

A workspace holds handlers. A handler owns an operation graph and the settings of its generation
passes. A symbol is a parameter or a node of one handler; it outlives its handler, but every use
of it is then refused. While a bundle of a handler is held, its graph cannot be changed.
-/

namespace Straightline

/-- Identifiers of handlers, never issued twice. -/
abbrev HandlerId := Nat

/-- A scalar of an expression under construction. -/
inductive Symbol (α : Type) where
  /-- A constant. -/
  | param (value : α)
  /-- A node of a handler. -/
  | var (handler : HandlerId) (node : NodeId)
  deriving DecidableEq, Repr

namespace Symbol

variable {α : Type}

/-- The value of a parameter. -/
def value? : Symbol α → Option α
  | param v => some v
  | var _ _ => none

/-- The operand that a symbol contributes to a node. -/
def toArg : Symbol α → Arg α
  | param v => .const v
  | var _ id => .node id

/-- The symbol of an operand in the graph of a handler. -/
def ofArg (handler : HandlerId) : Arg α → Symbol α
  | .const v => param v
  | .node id => var handler id

/-- The parameter zero. -/
def zero [Scalar α] : Symbol α := param Scalar.zero

/-- A parameter that is zero. -/
def isZero [Scalar α] (s : Symbol α) : Bool := s.value?.any Scalar.isZero

/-- A parameter that is one. -/
def isOne [Scalar α] (s : Symbol α) : Bool := s.value?.any Scalar.isOne

/-- Two parameters with equal values. -/
def sameParameter [Scalar α] : Symbol α → Symbol α → Bool
  | param a, param b => Scalar.compare .eq a b
  | _, _ => false

/-- Parameters are equal by value, variables if they are the same node of the same handler. -/
def same [Scalar α] : Symbol α → Symbol α → Bool
  | param a, param b => Scalar.compare .eq a b
  | var h a, var k b => h = k && a = b
  | _, _ => false

/-- Compare two parameters. -/
def compare [Scalar α] (c : Comparison) : Symbol α → Symbol α → Except Error Bool
  | param a, param b => .ok (Scalar.compare c a b)
  | _, _ => .error (.invalidComparison c)

end Symbol

/-- An operation graph with its settings. -/
structure Handler (α : Type) where
  /-- The graph. -/
  graph : Graph α := {}
  /-- The settings of generation passes. -/
  settings : Settings := {}
  /-- Whether a bundle of the graph is held. -/
  held : Bool := false

/-- The handlers that exist. -/
structure Workspace (α : Type) where
  /-- The handlers by identifier, none for a handler that was dropped. -/
  handlers : Table (Option (Handler α)) := ∅
  /-- The next identifier to issue. -/
  next : HandlerId := 0

/-- Computations on a workspace that may fail. What was done before a failure is kept. -/
abbrev Session (α : Type) := EStateM Error (Workspace α)

namespace Workspace

variable {α : Type}

/-- The handler behind an identifier. -/
def handler? (w : Workspace α) (h : HandlerId) : Option (Handler α) := w.handlers.get h

/-- The live node behind a symbol. -/
def node? (w : Workspace α) : Symbol α → Option (Node α)
  | .param _ => none
  | .var h id => (w.handler? h).bind fun handler => handler.graph.node? id

/-- Replace a handler. -/
def put (w : Workspace α) (h : HandlerId) (handler : Handler α) : Workspace α :=
  { w with handlers := w.handlers.set h (some handler) }

end Workspace

namespace Session

variable {α : Type}

/-- A handler that exists. -/
def live (h : HandlerId) : Session α (Handler α) := do
  match (← get).handler? h with
  | some handler => return handler
  | none => throw .handlerDropped

/-- A handler whose graph may be changed. -/
def writable (h : HandlerId) : Session α (Handler α) := do
  let handler ← live h
  if handler.held then throw .graphInUse
  return handler

/-- Replace the graph of a handler. -/
def putGraph (h : HandlerId) (handler : Handler α) (g : Graph α) : Session α Unit :=
  modify fun w => w.put h { handler with graph := g }

/-- Create a handler. -/
def create (settings : Settings) : Session α HandlerId := do
  let w ← get
  set { w.put w.next { settings := settings } with next := w.next + 1 }
  return w.next

/-- Change the settings of a handler. -/
def configure (h : HandlerId) (f : Settings → Settings) : Session α Unit := do
  let handler ← live h
  modify fun w => w.put h { handler with settings := f handler.settings }

/-- Release every node of a handler. Symbols made before can no longer be used. -/
def reset (h : HandlerId) : Session α Unit := do
  let handler ← writable h
  putGraph h handler handler.graph.reset

/-- Drop a handler. -/
def drop (h : HandlerId) : Session α Unit := do
  let _ ← writable h
  modify fun w => { w with handlers := w.handlers.set h none }

/-- The node of a symbol that belongs to a handler. -/
def ownNode (h : HandlerId) : Symbol α → Session α NodeId
  | .param _ => throw .notIndependent
  | .var owner id => do
    if owner ≠ h then throw .crossGraph
    let handler ← live h
    if handler.graph.contains id then return id else throw .foreignNode

/-- The operand of a symbol that belongs to a handler; parameters belong to every handler. -/
def ownArg (h : HandlerId) : Symbol α → Session α (Arg α)
  | .param v => return .const v
  | .var owner id => do return .node (← ownNode h (.var owner id))

/-- The roster position of an independent variable. -/
def independentIndex (h : HandlerId) (s : Symbol α) : Session α Nat := do
  let id ← ownNode h s
  match (← live h).graph.rosterIndex? id with
  | some index => return index
  | none => throw .notIndependent

end Session

end Straightline
