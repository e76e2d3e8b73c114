/-!
# Operations of the graph

The vocabulary of scalar operations. Arithmetic comes in two families, each with a direct and an
inverse member, so that a binary operation and a term of a flattened chain share one kind of tag.
An `Operation` holds its operands, hence its operand count is right by construction; an `Opcode`
is what remains when the operands are forgotten and carries the printed name.
-/

namespace Straightline

/-- The two families of arithmetic that can be flattened into chains. -/
inductive Family where
  | additive
  | multiplicative
  deriving DecidableEq, Repr

/-- Whether an operand enters a chain as itself or through the inverse operation. -/
inductive Sense where
  | direct
  | inverse
  deriving DecidableEq, Repr

/-- Exchange the direct and the inverse member of a family. -/
def Sense.flip : Sense → Sense
  | .direct => .inverse
  | .inverse => .direct

/-- One of the four arithmetic operators `+ - * /`. -/
structure Tag where
  /-- The family of the operator. -/
  family : Family
  /-- Its place in the family. -/
  sense : Sense
  deriving DecidableEq, Repr

namespace Tag

@[match_pattern] abbrev add : Tag := ⟨.additive, .direct⟩
@[match_pattern] abbrev sub : Tag := ⟨.additive, .inverse⟩
@[match_pattern] abbrev mul : Tag := ⟨.multiplicative, .direct⟩
@[match_pattern] abbrev div : Tag := ⟨.multiplicative, .inverse⟩

/-- The opposite operator: `+` for `-`, `*` for `/` and the other way round. -/
def flip (t : Tag) : Tag := { t with sense := t.sense.flip }

/-- The operator as written in an infix expression. -/
def symbol : Tag → String
  | add => "+"
  | sub => "-"
  | mul => "*"
  | div => "/"

/-- All four operators. -/
def all : List Tag := [add, sub, mul, div]

/-- Read an operator from its symbol. -/
def ofSymbol? (s : String) : Option Tag := all.find? fun t => t.symbol == s

end Tag

/-- Elementary functions of one argument that are computed as a call. -/
inductive Elementary where
  | abs | acos | asin | atan | cosh | cos | exp | log | sinh | sin | sqrt | tanh | tan
  deriving DecidableEq, Repr

namespace Elementary

/-- The short lowercase name of a function. -/
def name : Elementary → String
  | abs => "abs"
  | acos => "acos"
  | asin => "asin"
  | atan => "atan"
  | cosh => "cosh"
  | cos => "cos"
  | exp => "exp"
  | log => "log"
  | sinh => "sinh"
  | sin => "sin"
  | sqrt => "sqrt"
  | tanh => "tanh"
  | tan => "tan"

/-- Every elementary function. -/
def all : List Elementary :=
  [abs, acos, asin, atan, cosh, cos, exp, log, sinh, sin, sqrt, tanh, tan]

end Elementary

/-- Operations of one operand. -/
inductive Unary where
  /-- Negation. -/
  | neg
  /-- One, zero or minus one by comparison with zero. -/
  | sign
  /-- An elementary function. -/
  | call (f : Elementary)
  deriving DecidableEq, Repr

/-- The name of a unary operation. -/
def Unary.name : Unary → String
  | .neg => "neg"
  | .sign => "sign"
  | .call f => f.name

/-- Operations of two operands. -/
inductive Binary where
  /-- One of the four arithmetic operators. -/
  | arith (tag : Tag)
  /-- Exponentiation. -/
  | pow
  deriving DecidableEq, Repr

namespace Binary

@[match_pattern] abbrev add : Binary := .arith .add
@[match_pattern] abbrev sub : Binary := .arith .sub
@[match_pattern] abbrev mul : Binary := .arith .mul
@[match_pattern] abbrev div : Binary := .arith .div

/-- The name of a binary operation. -/
def name : Binary → String
  | add => "add"
  | sub => "sub"
  | mul => "mul"
  | div => "div"
  | pow => "pow"

end Binary

/-- The six comparisons of a select. -/
inductive Comparison where
  | lt | le | eq | ge | gt | ne
  deriving DecidableEq, Repr

namespace Comparison

/-- The name of a comparison. -/
def name : Comparison → String
  | lt => "lt"
  | le => "le"
  | eq => "eq"
  | ge => "ge"
  | gt => "gt"
  | ne => "ne"

/-- The comparison as written in an infix expression. -/
def symbol : Comparison → String
  | lt => "<"
  | le => "<="
  | eq => "=="
  | ge => ">="
  | gt => ">"
  | ne => "!="

/-- Every comparison. -/
def all : List Comparison := [lt, le, eq, ge, gt, ne]

/-- Read a comparison from its name. -/
def ofName? (s : String) : Option Comparison := all.find? fun c => c.name == s

end Comparison

/-- The kind of an operation, its operands forgotten. -/
inductive Opcode where
  /-- An independent variable. -/
  | independent
  /-- The value of another node. -/
  | copy
  /-- An operation of one operand. -/
  | unary (op : Unary)
  /-- An operation of two operands. -/
  | binary (op : Binary)
  /-- A choice between two values by a comparison of two others. -/
  | select (c : Comparison)
  /-- A flattened chain of one arithmetic family. -/
  | chain (family : Family)
  deriving DecidableEq, Repr

namespace Opcode

/-- The printed name of an operation kind. -/
def name : Opcode → String
  | independent => "independent"
  | copy => "alias"
  | unary op => op.name
  | binary op => op.name
  | select c => c.name
  | chain .additive => "addsub"
  | chain .multiplicative => "muldiv"

/-- Every operation kind. -/
def all : List Opcode :=
  [independent, copy, unary .neg, unary .sign] ++ Elementary.all.map (fun f => unary (.call f)) ++
    Tag.all.map (fun t => binary (.arith t)) ++ [binary .pow] ++ Comparison.all.map select ++
    [chain .additive, chain .multiplicative]

/-- Read an operation kind from its name. -/
def ofName? (s : String) : Option Opcode := all.find? fun op => op.name == s

/-- A flattened chain. -/
def isChain : Opcode → Bool
  | chain _ => true
  | _ => false

/-- The comparison of a select. -/
def comparison? : Opcode → Option Comparison
  | select c => some c
  | _ => none

/-- A choice by comparison. -/
def isComparison (op : Opcode) : Bool := op.comparison?.isSome

/-- A function of one argument; negation is an operator and not a function. -/
def isFunction : Opcode → Bool
  | unary .neg => false
  | unary _ => true
  | _ => false

/-- The arithmetic operator of a binary operation. -/
def tag? : Opcode → Option Tag
  | binary (.arith t) => some t
  | _ => none

end Opcode

/-- An operation together with its operands. -/
inductive Operation (β : Type) where
  /-- An independent variable has no operand. -/
  | independent
  /-- The value of another operand. -/
  | copy (x : β)
  /-- A unary operation. -/
  | unary (op : Unary) (x : β)
  /-- A binary operation. -/
  | binary (op : Binary) (l r : β)
  /-- `t` where the comparison of `l` with `r` holds and `f` elsewhere. -/
  | select (c : Comparison) (l r t f : β)
  /-- The terms of a chain, combined from left to right. -/
  | chain (family : Family) (terms : List (Sense × β))
  deriving DecidableEq, Repr

namespace Operation

variable {β γ : Type}

/-- Forget the operands. -/
def opcode : Operation β → Opcode
  | independent => .independent
  | copy _ => .copy
  | unary op _ => .unary op
  | binary op _ _ => .binary op
  | select c _ _ _ _ => .select c
  | chain family _ => .chain family

/-- The operands in order. -/
def operands : Operation β → List β
  | independent => []
  | copy x => [x]
  | unary _ x => [x]
  | binary _ l r => [l, r]
  | select _ l r t f => [l, r, t, f]
  | chain _ terms => terms.map Prod.snd

/-- The operator tags of a chain, empty for every other operation. -/
def tags : Operation β → List Tag
  | chain family terms => terms.map fun t => ⟨family, t.1⟩
  | _ => []

/-- Replace every operand. -/
def map (f : β → γ) : Operation β → Operation γ
  | independent => independent
  | copy x => copy (f x)
  | unary op x => unary op (f x)
  | binary op l r => binary op (f l) (f r)
  | select c l r t e => select c (f l) (f r) (f t) (f e)
  | chain family terms => chain family (terms.map fun t => (t.1, f t.2))

@[simp] theorem opcode_map (f : β → γ) (op : Operation β) : (op.map f).opcode = op.opcode := by
  cases op <;> rfl

@[simp] theorem operands_map (f : β → γ) (op : Operation β) :
    (op.map f).operands = op.operands.map f := by
  cases op <;> simp [map, operands]

@[simp] theorem tags_map (f : β → γ) (op : Operation β) : (op.map f).tags = op.tags := by
  cases op <;> simp [map, tags]

end Operation

end Straightline
