import Straightline.Error
import Straightline.Generation.Flattening
import Straightline.Generation.Schedule
import Straightline.Generation.SlotReuse

/-!
# Generation passes

A pass prepares the graph for evaluating requested outputs: it reserves slots, counts references,
schedules the stored nodes and, as the settings say, flattens arithmetic chains and lets
temporaries share slots. Each of these steps goes on from the tables of the pass. Beginning a pass
clears them all, so that a pass starts from the recorded nodes alone and does not depend on passes
before it.
-/

namespace Straightline

/-- Switches of a generation pass. -/
structure Settings where
  /-- Flatten arithmetic chains. -/
  optimize : Bool := true
  /-- Let temporaries with disjoint lifetimes share slots. -/
  reuse : Bool := true
  /-- Report on the work of every pass. -/
  verbose : Bool := false
  deriving DecidableEq, Repr

namespace Graph

variable {α : Type}

/-- Drop the results of the latest pass. -/
def beginPass (g : Graph α) : Graph α := { g with pass := {} }

@[simp] theorem pass_beginPass (g : Graph α) : g.beginPass.pass = {} := rfl

/-- An operand that refers to no released node. -/
def isLive (g : Graph α) : Arg α → Bool
  | .const _ => true
  | .node id => g.contains id

/-- Prepare the graph for evaluating the outputs, and map the outputs into the prepared graph. The
pass stops at the first released node that it meets and leaves what it did until then. -/
def generate (g : Graph α) (settings : Settings) (policy : Policy α) (outputs : List (Arg α)) :
    Except Fault (List (Arg α)) × Graph α :=
  let g := g.beginPass
  let live := outputs.takeWhile g.isLive
  let reserved :=
    Reservation.make g.roster live { slots := g.pass.slots, owners := g.pass.owners }
  let pass : Pass α := { g.pass with slots := reserved.slots, owners := reserved.owners }
  if live.length < outputs.length then (.error .releasedNode, { g with pass := pass })
  else
    let (left, refs) := g.countReferences outputs pass.refs
    let pass : Pass α :=
      { pass with
        refs := refs, lastId := reserved.lastId, firstTemporary := reserved.lastId + 1 }
    if !left.isEmpty then (.error .releasedNode, { g with pass := pass })
    else
      let s := Schedule.run g policy refs pass.slots pass.lastId outputs pass.ranks
      let pass : Pass α :=
        { pass with
          slots := s.slots, ranks := s.ranks, order := s.queue.toList, lastId := s.lastId }
      let g : Graph α := { g with pass := pass }
      let (outputs, g) := if settings.optimize then g.flatten outputs else (outputs, g)
      (.ok outputs, if settings.reuse then g.reuseSlots else g)

end Graph

end Straightline
