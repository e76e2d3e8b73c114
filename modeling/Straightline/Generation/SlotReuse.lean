import Straightline.Graph.Traversal

/-!
# Slot reuse

Temporaries whose lifetimes do not overlap share a slot. A temporary computed at rank `p` whose
last reader runs at rank `q` occupies its slot from `p` to `q`; the slot is free again from rank
`q + 1`. A free slot is reused before a new one is issued, and of several free slots the one that
was freed last is taken.

Lifetimes end with the last reader. A node without a slot is looked through: a value read inside an
inlined expression is read by the stored node that the expression belongs to.
-/

namespace Straightline

/-- Slots chosen for one evaluation order. -/
structure SlotPlan where
  /-- The slot at each rank, none where the value is not a temporary. -/
  slots : List (Option Nat)
  /-- The largest slot in use. -/
  lastId : Nat
  deriving DecidableEq, Repr

namespace SlotPlan

/-- The state of planning. -/
structure State where
  /-- The slots that become free after a rank, the latest released first. -/
  releases : Table (List Nat) := ∅
  /-- The free slots, the next to be reused first. -/
  free : List Nat := []
  /-- The last slot issued. -/
  lastId : Nat

/-- Take a free slot or issue a new one. -/
def State.take (s : State) : Nat × State :=
  match s.free with
  | slot :: free => (slot, { s with free := free })
  | [] => (s.lastId + 1, { s with lastId := s.lastId + 1 })

/-- The rank after which a slot becomes free: the last use, between the rank of the definition and
the end of the order. -/
def releaseRank (lastUse rank length : Nat) : Nat := min (max lastUse rank) length

/-- Choose the slot at one rank. -/
def State.step (s : State) (length rank : Nat) (lastUse : Option Nat) : Option Nat × State :=
  let s := { s with free := s.releases.get (rank - 1) ++ s.free }
  match lastUse with
  | none => (none, s)
  | some lastUse =>
    let (slot, s) := s.take
    let stop := releaseRank lastUse rank length
    (some slot, { s with releases := s.releases.set stop (slot :: s.releases.get stop) })

/-- Choose the slots from a rank on. -/
def State.run (length : Nat) : List (Option Nat) → Nat → State → List (Option Nat) × State
  | [], _, s => ([], s)
  | lastUse :: rest, rank, s =>
    let (slot, s) := s.step length rank lastUse
    let (slots, s) := run length rest (rank + 1) s
    (slot :: slots, s)

/-- Plan the slots of an evaluation order. The list gives the last use of each temporary by rank,
and none for a value that is not a temporary; slots are issued from `first` on. -/
def make (lastUses : List (Option Nat)) (first : Nat) : SlotPlan :=
  let (slots, s) := State.run lastUses.length lastUses 1 { lastId := first - 1 }
  { slots := slots, lastId := s.lastId }

end SlotPlan

namespace Graph

variable {α : Type}

/-- The nodes with a slot that a stored node reads, directly or through nodes without one. -/
def reads (g : Graph α) (id : NodeId) : List NodeId :=
  let inlined (id : NodeId) : List NodeId := if g.slot id = 0 then g.references id else []
  (dependencyOrder inlined (g.next + 1) (g.references id)).filter fun id => g.slot id ≠ 0

/-- Record the reads of the stored nodes from a rank on. -/
def readRanks (g : Graph α) : List NodeId → Nat → Table Nat → Table Nat
  | [], _, lastUses => lastUses
  | id :: rest, rank, lastUses =>
    readRanks g rest (rank + 1)
      ((g.reads id).foldl (fun t read => t.set read (max (t.get read) rank)) lastUses)

/-- The rank of the last reader of each stored node. -/
def lastUses (g : Graph α) : Table Nat := g.readRanks g.order 1 g.pass.lastUses

/-- Give planned slots to the nodes of an order. -/
def assignSlots : List NodeId → List (Option Nat) → Table Nat → Table Nat
  | id :: ids, some slot :: plan, slots => assignSlots ids plan (slots.set id slot)
  | _ :: ids, none :: plan, slots => assignSlots ids plan slots
  | _, _, slots => slots

/-- Let temporaries with disjoint lifetimes share slots. -/
def reuseSlots (g : Graph α) : Graph α :=
  let lastUses := g.lastUses
  let plan :=
    SlotPlan.make
      (g.order.map fun id =>
        if g.pass.firstTemporary ≤ g.slot id then some (lastUses.get id) else none)
      g.pass.firstTemporary
  { g with
    pass :=
      { g.pass with
        lastUses := lastUses
        slots := assignSlots g.order plan.slots g.pass.slots
        lastId := plan.lastId } }

end Graph

end Straightline
