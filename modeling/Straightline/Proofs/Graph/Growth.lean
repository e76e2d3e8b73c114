import Straightline.Proofs.Generation.Scheduled

/-!
# Recorded nodes over time

A graph grows if its roster and all its recorded nodes stay as they are. Recording a node and
running a pass let it grow. Naming a node, creating a variable and eliminating one do more, but
still preserve every expression: a recorded node stays recorded, and it keeps its operation unless
it is an independent variable. All but the elimination leave the variables at their positions in the
roster.
-/

namespace Straightline

namespace Graph

variable {α : Type} {g g' g'' : Graph α}

/-- The roster and all recorded nodes stay as they are. -/
structure Grows (g g' : Graph α) : Prop where
  /-- The roster is the same. -/
  roster : g'.roster = g.roster
  /-- Recorded nodes stay as they are. -/
  recorded : ∀ id node, g.recorded.get id = some node → g'.recorded.get id = some node

theorem Grows.refl (g : Graph α) : g.Grows g := ⟨rfl, fun _ _ hnode => hnode⟩

theorem Grows.trans (h : g.Grows g') (h' : g'.Grows g'') : g.Grows g'' :=
  ⟨h'.roster.trans h.roster, fun id node hnode => h'.recorded id node (h.recorded id node hnode)⟩

theorem Grows.exists_recorded (h : g.Grows g') {id : NodeId}
    (hid : ∃ node, g.recorded.get id = some node) : ∃ node, g'.recorded.get id = some node := by
  obtain ⟨node, hnode⟩ := hid
  exact ⟨node, h.recorded id node hnode⟩

/-- Recorded nodes stay recorded, and keep their operations unless they are independent
variables. -/
def Preserves (g g' : Graph α) : Prop :=
  ∀ id node, g.recorded.get id = some node → ∃ node', g'.recorded.get id = some node' ∧
    (node.operation ≠ .independent → node'.operation = node.operation)

theorem Preserves.refl (g : Graph α) : g.Preserves g :=
  fun _ node hnode => ⟨node, hnode, fun _ => rfl⟩

theorem Preserves.trans (h : g.Preserves g') (h' : g'.Preserves g'') : g.Preserves g'' := by
  intro id node hnode
  obtain ⟨node', hnode', hop⟩ := h id node hnode
  obtain ⟨node'', hnode'', hop'⟩ := h' id node' hnode'
  refine ⟨node'', hnode'', fun hne => ?_⟩
  have hsame := hop hne
  rw [hop' (by rwa [hsame]), hsame]

theorem Grows.preserves (h : g.Grows g') : g.Preserves g' :=
  fun id node hnode => ⟨node, h.recorded id node hnode, fun _ => rfl⟩

/-- Expressions are preserved, and variables only join the roster, at its end. -/
structure Appends (g g' : Graph α) : Prop where
  /-- Recorded nodes keep their operations. -/
  preserves : g.Preserves g'
  /-- Variables keep their positions. -/
  roster : g.roster <+: g'.roster

theorem Appends.trans (h : g.Appends g') (h' : g'.Appends g'') : g.Appends g'' :=
  ⟨h.preserves.trans h'.preserves, h.roster.trans h'.roster⟩

theorem Grows.appends (h : g.Grows g') : g.Appends g' :=
  ⟨h.preserves, h.roster ▸ List.prefix_rfl⟩

/-- A relation that holds between a graph and what it grows to, and along chains. -/
structure Admissible (P : Graph α → Graph α → Prop) : Prop where
  of_grows : ∀ {g g' : Graph α}, g.Grows g' → P g g'
  trans : ∀ {g g' g'' : Graph α}, P g g' → P g' g'' → P g g''

theorem Admissible.refl {P : Graph α → Graph α → Prop} (h : Admissible P) (g : Graph α) : P g g :=
  h.of_grows (.refl g)

theorem admissible_grows : Admissible (Grows (α := α)) := ⟨id, Grows.trans⟩

theorem admissible_preserves : Admissible (Preserves (α := α)) :=
  ⟨Grows.preserves, Preserves.trans⟩

theorem admissible_appends : Admissible (Appends (α := α)) := ⟨Grows.appends, Appends.trans⟩

theorem WellFormed.grows_record (h : g.WellFormed) (op : Operation (Arg α)) :
    g.Grows (g.record op).2 :=
  ⟨rfl, fun _ _ => h.recorded_record op⟩

theorem WellFormed.appends_addIndependent (h : g.WellFormed) :
    g.Appends g.addIndependent.2 where
  preserves _ node hnode := ⟨node, h.recorded_record .independent hnode, fun _ => rfl⟩
  roster := List.prefix_append ..

theorem preserves_setName (g : Graph α) (id : NodeId) (name : String) :
    g.Preserves (g.setName id name) := by
  intro k node hnode
  have hsame := (operation?_setName g id name k).1
  rw [hnode, Option.map_some] at hsame
  obtain ⟨node', hnode', hop⟩ := Option.map_eq_some_iff.mp hsame
  exact ⟨node', hnode', fun _ => hop⟩

theorem appends_setName (g : Graph α) (id : NodeId) (name : String) :
    g.Appends (g.setName id name) := by
  refine ⟨preserves_setName g id name, ?_⟩
  unfold setName
  split <;> exact List.prefix_rfl

/-- A pass changes no recorded node and leaves the roster, whether it succeeds or not. -/
theorem grows_generate (g : Graph α) (settings : Settings) (policy : Policy α)
    (outputs : List (Arg α)) : g.Grows (g.generate settings policy outputs).2 := by
  have hsame : (g.generate settings policy outputs).2.roster = g.roster ∧
      (g.generate settings policy outputs).2.recorded = g.recorded := by
    unfold generate
    dsimp only
    split
    · exact ⟨rfl, rfl⟩
    · split
      · exact ⟨rfl, rfl⟩
      · cases settings.optimize <;> cases settings.reuse <;> exact ⟨rfl, rfl⟩
  exact ⟨hsame.1, fun id node hnode => by rw [hsame.2, hnode]⟩

end Graph

end Straightline
