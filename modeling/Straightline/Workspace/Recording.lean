import Straightline.Recording
import Straightline.Workspace.Basic

/-!
# Recording operations on symbols

Operations on parameters are folded and shortcuts taken without a look at any handler. All other
operations record a node in the one handler that their variables belong to.
-/

namespace Straightline

namespace Session

variable {α : Type}

/-- The handler that all variables among the operands belong to. -/
def commonHandler : Option HandlerId → List (Symbol α) → Except Error HandlerId
  | some h, [] => .ok h
  | none, [] => .error .noVariable
  | found, .param _ :: rest => commonHandler found rest
  | none, .var h _ :: rest => commonHandler (some h) rest
  | some h, .var k _ :: rest => if h = k then commonHandler (some h) rest else .error .crossGraph

/-- Record an operation on symbols. -/
def record (op : Operation (Symbol α)) : Session α (Symbol α) := do
  let h ← match commonHandler none op.operands with
    | .ok h => pure h
    | .error e => throw e
  let handler ← writable h
  let op := op.map Symbol.toArg
  if op.references.any fun id => !handler.graph.contains id then throw .foreignNode
  let (id, g) := handler.graph.record op
  putGraph h handler g
  return .var h id

/-- Create an independent variable. -/
def newVariable (h : HandlerId) : Session α (Symbol α) := do
  let handler ← writable h
  let (id, g) := handler.graph.addIndependent
  putGraph h handler g
  return .var h id

/-- Give a display name to a variable. -/
def setName (s : Symbol α) (name : String) : Session α Unit :=
  match s with
  | .param _ => throw .parameterName
  | .var h id => do
    let handler ← writable h
    if !handler.graph.contains id then throw .foreignNode
    putGraph h handler (handler.graph.setName id name)

variable [Scalar α]

/-- A binary operation. -/
def binary (op : Binary) (l r : Symbol α) : Session α (Symbol α) :=
  match op.shortcut? l.value? r.value? with
  | some (.value v) => return .param v
  | some .left => return l
  | some .right => return r
  | none => record (.binary op l r)

/-- A unary operation. -/
def unary (op : Unary) : Symbol α → Session α (Symbol α)
  | .param v => return .param (op.apply v)
  | .var h id => record (.unary op (.var h id))

/-- A binary operation by its kind; a kind that is not binary is refused. -/
def applyBinary (op : Opcode) (l r : Symbol α) : Session α (Symbol α) :=
  match op with
  | .binary op => binary op l r
  | op => throw (.notBinary op)

/-- A unary operation by its kind; a kind that is not unary is refused. -/
def applyUnary (op : Opcode) (x : Symbol α) : Session α (Symbol α) :=
  match op with
  | .unary op => unary op x
  | op => throw (.notUnary op)

/-- A choice by comparison. If both compared symbols are parameters the choice is made at once. -/
def select (c : Comparison) (l r t f : Symbol α) : Session α (Symbol α) :=
  match l, r with
  | .param a, .param b => return if Scalar.compare c a b then t else f
  | l, r => record (.select c l r t f)

/-- The logarithm to base ten, as a quotient of natural logarithms. -/
def log10 (x : Symbol α) : Session α (Symbol α) := do
  binary .div (← unary (.call .log) x) (.param Scalar.ln10)

end Session

end Straightline
