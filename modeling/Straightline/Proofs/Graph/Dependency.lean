import Mathlib.Data.Finset.Card
import Mathlib.Logic.Relation
import Straightline.Graph.Traversal

/-!
# Dependencies without cycles

The walks of the library take the dependencies of a node as a function. If no node depends on
itself, the nodes below a bound can be ranked so that every dependency has a smaller rank; a depth
above all ranks is never exhausted. The depth-first walk then lists exactly the nodes that the
roots reach, each once and after everything it depends on.
-/

namespace Straightline

/-- A node reaches what it depends on, in any number of steps. -/
abbrev Reaches (deps : NodeId → List NodeId) : NodeId → NodeId → Prop :=
  Relation.ReflTransGen fun a b => b ∈ deps a

/-- No node reaches itself through one dependency or more. -/
def Acyclic (deps : NodeId → List NodeId) : Prop :=
  ∀ id, ¬ Relation.TransGen (fun a b => b ∈ deps a) id id

/-- Every dependency has a smaller rank. -/
def Ranked (deps : NodeId → List NodeId) (rank : NodeId → Nat) : Prop :=
  ∀ a, ∀ b ∈ deps a, rank b < rank a

/-- Ranks do not grow along any path. -/
theorem Ranked.le_of_reaches {deps : NodeId → List NodeId} {rank : NodeId → Nat}
    (h : Ranked deps rank) {a b : NodeId} (hab : Reaches deps a b) : rank b ≤ rank a := by
  induction hab with
  | refl => exact Nat.le_refl _
  | tail _ hstep ih => exact Nat.le_trans (Nat.le_of_lt (h _ _ hstep)) ih

/-- A dependency never reaches back. -/
theorem Ranked.not_reaches {deps : NodeId → List NodeId} {rank : NodeId → Nat}
    (h : Ranked deps rank) {a b : NodeId} (hb : b ∈ deps a) : ¬ Reaches deps b a := by
  intro hreach
  have hle := h.le_of_reaches hreach
  have hlt := h a b hb
  omega

/-- Ranked dependencies have no cycle. -/
theorem Ranked.acyclic {deps : NodeId → List NodeId} {rank : NodeId → Nat}
    (h : Ranked deps rank) : Acyclic deps := by
  intro id hcycle
  obtain ⟨b, hb, hreach⟩ := Relation.TransGen.head'_iff.mp hcycle
  exact h.not_reaches hb hreach

/-- Without cycles, a node is ranked by the number of nodes that it depends on. -/
theorem Acyclic.exists_ranked {deps : NodeId → List NodeId} {bound : Nat} (h : Acyclic deps)
    (hbound : ∀ a, ∀ b ∈ deps a, b < bound) : ∃ rank, Ranked deps rank ∧ ∀ a, rank a ≤ bound := by
  classical
  let below (a : NodeId) : Finset NodeId :=
    (Finset.range bound).filter fun k => Relation.TransGen (fun a b => b ∈ deps a) a k
  refine ⟨fun a => (below a).card, ⟨?_, ?_⟩⟩
  · intro a b hb
    apply Finset.card_lt_card
    refine Finset.ssubset_iff_subset_ne.mpr ⟨?_, ?_⟩
    · intro k hk
      obtain ⟨hlt, hreach⟩ := Finset.mem_filter.mp hk
      exact Finset.mem_filter.mpr ⟨hlt, Relation.TransGen.head hb hreach⟩
    · intro heq
      have hmem : b ∈ below a :=
        Finset.mem_filter.mpr ⟨Finset.mem_range.mpr (hbound a b hb), .single hb⟩
      rw [← heq] at hmem
      exact h b (Finset.mem_filter.mp hmem).2
  · intro a
    have hcard : (below a).card ≤ (Finset.range bound).card := Finset.card_filter_le _ _
    rwa [Finset.card_range] at hcard

/-- Fewer dependencies have no more cycles. -/
theorem Acyclic.mono {deps deps' : NodeId → List NodeId} (h : Acyclic deps)
    (hsub : ∀ a, ∀ b ∈ deps' a, b ∈ deps a) : Acyclic deps' := by
  intro id hcycle
  exact h id (Relation.TransGen.mono hsub id id hcycle)

/-- A new node that depends on issued ones closes no cycle. -/
theorem Acyclic.of_fresh {deps deps' : NodeId → List NodeId} {bound : Nat} (h : Acyclic deps)
    (hbound : ∀ a, ∀ b ∈ deps a, b < bound)
    (hnew : ∀ a, ∀ b ∈ deps' a, b ∈ deps a ∨ a = bound ∧ b < bound) : Acyclic deps' := by
  obtain ⟨rank, hrank, hle⟩ := h.exists_ranked hbound
  suffices hranked : Ranked deps' fun a => if a = bound then bound + 1 else rank a from
    hranked.acyclic
  intro a b hb
  have hlt : b < bound := (hnew a b hb).elim (hbound a b) And.right
  have hleb := hle b
  dsimp only
  rw [if_neg (Nat.ne_of_lt hlt)]
  by_cases ha : a = bound
  · rw [if_pos ha]
    omega
  · rw [if_neg ha]
    exact hrank a b ((hnew a b hb).resolve_right fun h => ha h.1)

/-- One new dependency that does not lead back closes no cycle. -/
theorem Acyclic.of_new_edge {deps deps' : NodeId → List NodeId} (h : Acyclic deps)
    {source : NodeId} {sink : NodeId}
    (hedge : ∀ a, ∀ b ∈ deps' a, b ∈ deps a ∨ a = source ∧ b = sink)
    (hback : ¬ Reaches deps sink source) : Acyclic deps' := by
  have hsplit : ∀ {a b}, Relation.TransGen (fun a b => b ∈ deps' a) a b →
      Relation.TransGen (fun a b => b ∈ deps a) a b ∨
        Reaches deps a source ∧ Reaches deps sink b := by
    intro a b hab
    induction hab with
    | single hstep =>
      rcases hedge _ _ hstep with hold | ⟨rfl, rfl⟩
      · exact .inl (.single hold)
      · exact .inr ⟨.refl, .refl⟩
    | tail _ hstep ih =>
      rcases hedge _ _ hstep with hold | ⟨rfl, rfl⟩
      · rcases ih with hpath | ⟨hto, hfrom⟩
        · exact .inl (hpath.tail hold)
        · exact .inr ⟨hto, hfrom.tail hold⟩
      · rcases ih with hpath | ⟨_, hfrom⟩
        · exact .inr ⟨hpath.to_reflTransGen, .refl⟩
        · exact absurd hfrom hback
  intro id hcycle
  rcases hsplit hcycle with hpath | ⟨hto, hfrom⟩
  · exact h id hpath
  · exact hback (hfrom.trans hto)

/-- Every entry of a list stands after everything it needs. -/
def Sorted (needs : NodeId → NodeId → Prop) (order : List NodeId) : Prop :=
  ∀ before id after, order = before ++ id :: after → ∀ k, needs id k → k ∈ before

@[simp] theorem sorted_nil (needs : NodeId → NodeId → Prop) : Sorted needs [] := by
  intro before id after h
  simp at h

/-- A sorted list is extended by a node whose needs it holds. -/
theorem Sorted.concat {needs : NodeId → NodeId → Prop} {order : List NodeId} {id : NodeId}
    (h : Sorted needs order) (hid : ∀ k, needs id k → k ∈ order) :
    Sorted needs (order ++ [id]) := by
  intro before k after heq
  rcases List.eq_nil_or_concat after with rfl | ⟨init, last, rfl⟩
  · obtain ⟨rfl, hlast⟩ := List.append_inj' heq rfl
    obtain rfl : id = k := by simpa using hlast
    exact hid
  · have heq' : order ++ [id] = (before ++ k :: init) ++ [last] := by simpa using heq
    exact h before k init (List.append_inj' heq' rfl).1

/-- A sorted list holds what its entries need. -/
theorem Sorted.mem_of_mem {needs : NodeId → NodeId → Prop} {order : List NodeId}
    (h : Sorted needs order) {id k : NodeId} (hid : id ∈ order) (hk : needs id k) : k ∈ order := by
  obtain ⟨before, after, rfl⟩ := List.append_of_mem hid
  exact List.mem_append_left _ (h before id after rfl k hk)

/-- A sorted list holds everything its entries need in any number of steps. -/
theorem Sorted.mem_of_reaches {needs : NodeId → NodeId → Prop} {order : List NodeId}
    (h : Sorted needs order) {id k : NodeId} (hid : id ∈ order)
    (hk : Relation.ReflTransGen needs id k) : k ∈ order := by
  induction hk with
  | refl => exact hid
  | tail _ hstep ih => exact h.mem_of_mem ih hstep

/-- Fewer needs keep a list sorted. -/
theorem Sorted.mono {needs needs' : NodeId → NodeId → Prop} {order : List NodeId}
    (h : Sorted needs order) (hsub : ∀ id ∈ order, ∀ k, needs' id k → needs id k) :
    Sorted needs' order := by
  intro before id after heq k hk
  have hid : id ∈ order := by simp [heq]
  exact h before id after heq k (hsub id hid k hk)

namespace Walk

variable {deps : NodeId → List NodeId} {depth : Nat} {rank : NodeId → Nat}

/-- The finished nodes of a walk are the seen ones, listed once and in dependency order. -/
structure Valid (deps : NodeId → List NodeId) (w : Walk) : Prop where
  /-- Seen is finished. -/
  seen : ∀ k, w.seen.get k = true ↔ k ∈ w.finished.toList
  /-- No node is finished twice. -/
  nodup : w.finished.toList.Nodup
  /-- Dependencies are finished first. -/
  sorted : Sorted (fun a b => b ∈ deps a) w.finished.toList

/-- What visiting nodes adds to a walk: they are finished, and so is only what they reach. -/
structure Adds (deps : NodeId → List NodeId) (ids : List NodeId) (w w' : Walk) : Prop where
  /-- The walk stays valid. -/
  valid : Valid deps w'
  /-- What was finished stays. -/
  kept : ∀ k ∈ w.finished.toList, k ∈ w'.finished.toList
  /-- The visited nodes are finished. -/
  visited : ∀ id ∈ ids, id ∈ w'.finished.toList
  /-- Nothing else is finished but what they reach. -/
  only : ∀ k ∈ w'.finished.toList, k ∈ w.finished.toList ∨ ∃ id ∈ ids, Reaches deps id k

theorem valid_empty (deps : NodeId → List NodeId) : Valid deps {} where
  seen k := by simp
  nodup := List.nodup_nil
  sorted := sorted_nil _

theorem Adds.refl {w : Walk} (h : Valid deps w) : Adds deps [] w w where
  valid := h
  kept _ hk := hk
  visited _ hid := by simp at hid
  only _ hk := .inl hk

theorem Adds.cons {id : NodeId} {ids : List NodeId} {w w' w'' : Walk}
    (h : Adds deps [id] w w') (h' : Adds deps ids w' w'') : Adds deps (id :: ids) w w'' where
  valid := h'.valid
  kept k hk := h'.kept k (h.kept k hk)
  visited k hk := by
    rcases List.mem_cons.mp hk with rfl | hk
    · exact h'.kept k (h.visited k (List.mem_singleton_self k))
    · exact h'.visited k hk
  only k hk := by
    rcases h'.only k hk with hk | ⟨i, hi, hreach⟩
    · rcases h.only k hk with hk | ⟨i, hi, hreach⟩
      · exact .inl hk
      · obtain rfl := List.mem_singleton.mp hi
        exact .inr ⟨i, List.mem_cons_self, hreach⟩
    · exact .inr ⟨i, List.mem_cons_of_mem _ hi, hreach⟩

/-- Visiting nodes in turn adds them all, if visiting each adds it. -/
theorem adds_foldl {visit : NodeId → Walk → Walk} {ids : List NodeId} {w : Walk}
    (hvisit : ∀ id ∈ ids, ∀ w, Valid deps w → Adds deps [id] w (visit id w)) (hw : Valid deps w) :
    Adds deps ids w (ids.foldl (fun w id => visit id w) w) := by
  induction ids generalizing w with
  | nil => exact Adds.refl hw
  | cons id ids ih =>
    have hhead := hvisit id List.mem_cons_self w hw
    exact hhead.cons (ih (fun k hk => hvisit k (List.mem_cons_of_mem _ hk)) hhead.valid)

/-- Finishing a node after its dependencies keeps a walk valid. -/
theorem Valid.finish {w : Walk} (h : Valid deps w) {id : NodeId}
    (hnew : id ∉ w.finished.toList) (hdeps : ∀ k ∈ deps id, k ∈ w.finished.toList) :
    Valid deps { seen := w.seen.set id true, finished := w.finished.push id } where
  seen k := by
    rw [Table.get_set, Array.toList_push, List.mem_append, List.mem_singleton, ← h.seen k]
    by_cases hk : k = id <;> simp [hk]
  nodup := by
    rw [Array.toList_push]
    exact List.nodup_append'.mpr ⟨h.nodup, List.nodup_singleton _, by simpa using hnew⟩
  sorted := by
    rw [Array.toList_push]
    exact h.sorted.concat hdeps

/-- A visit finishes the node and what it reaches, as long as the depth is above its rank. -/
theorem adds_visit (hrank : Ranked deps rank) (id : NodeId) (w : Walk)
    (hdepth : rank id < depth) (hw : Valid deps w) :
    Adds deps [id] w (visit deps depth id w) := by
  induction depth generalizing id w with
  | zero => omega
  | succ depth ih =>
    unfold visit
    by_cases hseen : w.seen.get id = true
    · rw [if_pos hseen]
      refine ⟨hw, fun k hk => hk, ?_, fun k hk => .inl hk⟩
      intro k hk
      rw [List.mem_singleton.mp hk]
      exact (hw.seen id).mp hseen
    · rw [if_neg hseen]
      have hchildren : Adds deps (deps id) w
          ((deps id).foldl (fun w child => visit deps depth child w) w) := by
        refine adds_foldl (fun child hchild w hw => ih child w ?_ hw) hw
        have hlt := hrank id child hchild
        omega
      generalize (deps id).foldl (fun w child => visit deps depth child w) w = w' at hchildren
      -- The node cannot be among the new ones, since it would reach itself.
      have hnew : id ∉ w'.finished.toList := by
        intro hmem
        rcases hchildren.only id hmem with hold | ⟨child, hchild, hreach⟩
        · exact hseen ((hw.seen id).mpr hold)
        · exact hrank.not_reaches hchild hreach
      refine ⟨hchildren.valid.finish hnew hchildren.visited, ?_, ?_, ?_⟩
      · intro k hk
        rw [Array.toList_push]
        exact List.mem_append_left _ (hchildren.kept k hk)
      · intro k hk
        rw [Array.toList_push, List.mem_singleton.mp hk]
        exact List.mem_append_right _ (List.mem_singleton_self id)
      · intro k hk
        rw [Array.toList_push] at hk
        rcases List.mem_append.mp hk with hk | hk
        · rcases hchildren.only k hk with hold | ⟨child, hchild, hreach⟩
          · exact .inl hold
          · exact .inr ⟨id, List.mem_singleton_self id, .head hchild hreach⟩
        · rw [List.mem_singleton.mp hk]
          exact .inr ⟨id, List.mem_singleton_self id, .refl⟩

end Walk

section Order

variable {deps : NodeId → List NodeId} {depth : Nat} {rank : NodeId → Nat}

private theorem adds_dependencyOrder (hrank : Ranked deps rank) (hdepth : ∀ a, rank a < depth)
    (roots : List NodeId) :
    Walk.Adds deps roots {} (roots.foldl (fun w id => Walk.visit deps depth id w) {}) :=
  Walk.adds_foldl (fun id _ w hw => Walk.adds_visit hrank id w (hdepth id) hw)
    (Walk.valid_empty deps)

/-- The dependency order lists no node twice. -/
theorem nodup_dependencyOrder (hrank : Ranked deps rank) (hdepth : ∀ a, rank a < depth)
    (roots : List NodeId) : (dependencyOrder deps depth roots).Nodup :=
  (adds_dependencyOrder hrank hdepth roots).valid.nodup

/-- The dependency order lists a node after what it depends on. -/
theorem sorted_dependencyOrder (hrank : Ranked deps rank) (hdepth : ∀ a, rank a < depth)
    (roots : List NodeId) : Sorted (fun a b => b ∈ deps a) (dependencyOrder deps depth roots) :=
  (adds_dependencyOrder hrank hdepth roots).valid.sorted

/-- The dependency order lists exactly what the roots reach. -/
theorem mem_dependencyOrder (hrank : Ranked deps rank) (hdepth : ∀ a, rank a < depth)
    {roots : List NodeId} {k : NodeId} :
    k ∈ dependencyOrder deps depth roots ↔ ∃ id ∈ roots, Reaches deps id k := by
  have hadds := adds_dependencyOrder hrank hdepth roots
  constructor
  · intro hk
    exact (hadds.only k hk).resolve_left (by simp)
  · rintro ⟨id, hid, hreach⟩
    exact hadds.valid.sorted.mem_of_reaches (hadds.visited id hid) hreach

end Order

/-- The work that is left on the nodes below a bound that are not done. -/
def workLeft (weight : NodeId → Nat) (done : NodeId → Bool) : Nat → Nat
  | 0 => 0
  | bound + 1 => workLeft weight done bound + if done bound then 0 else weight bound

section Work

variable {weight : NodeId → Nat} {done done' : NodeId → Bool} {bound : Nat}

@[simp] theorem workLeft_succ : workLeft weight done (bound + 1) =
    workLeft weight done bound + if done bound then 0 else weight bound := rfl

/-- Doing nothing new below the bound leaves the work as it is. -/
theorem workLeft_congr (h : ∀ id < bound, done' id = done id) :
    workLeft weight done' bound = workLeft weight done bound := by
  induction bound with
  | zero => rfl
  | succ bound ih =>
    rw [workLeft_succ, workLeft_succ, ih fun id hid => h id (by omega), h bound (by omega)]

/-- Before anything is done, the work is that of all nodes together. -/
theorem workLeft_none (weight : NodeId → Nat) (bound : Nat) :
    workLeft weight (fun _ => false) bound =
      (List.range bound).foldl (fun n id => n + weight id) 0 := by
  induction bound with
  | zero => rfl
  | succ bound ih => simp [ih, List.range_succ]

/-- Where more is done, less work is left. -/
theorem workLeft_mono (h : ∀ id, done id = true → done' id = true) :
    workLeft weight done' bound ≤ workLeft weight done bound := by
  induction bound with
  | zero => exact Nat.le_refl _
  | succ bound ih =>
    have hlast := h bound
    rw [workLeft_succ, workLeft_succ]
    cases hdone : done bound
    · cases hdone' : done' bound <;> simp <;> omega
    · simpa [hlast hdone] using ih

/-- Finishing a node below the bound saves exactly its own work. -/
theorem workLeft_finish {id : Nat} (hlt : id < bound) (hopen : done id = false)
    (hdone : done' id = true) (hsame : ∀ k : Nat, k ≠ id → done' k = done k) :
    workLeft weight done' bound + weight id = workLeft weight done bound := by
  induction bound with
  | zero => omega
  | succ bound ih =>
    rw [workLeft_succ, workLeft_succ]
    by_cases heq : id = bound
    · subst heq
      have hbelow : workLeft weight done' id = workLeft weight done id :=
        workLeft_congr fun k hk => hsame k (by omega)
      simp [hbelow, hopen, hdone]
    · have hrest := ih (by omega)
      rw [hsame bound (fun h => heq h.symm)]
      omega

/-- A node that is not done accounts for its own work. -/
theorem le_workLeft (weight : NodeId → Nat) {id : Nat} (hlt : id < bound)
    (hopen : done id = false) :
    weight id ≤ workLeft weight done bound := by
  have hfinish : workLeft weight (fun k => k == id || done k) bound + weight id =
      workLeft weight done bound :=
    workLeft_finish hlt hopen (by simp) fun k hk => by simp [hk]
  omega

end Work

end Straightline
