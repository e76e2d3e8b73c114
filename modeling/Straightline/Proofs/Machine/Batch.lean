import Straightline.Machine.Batch
import Straightline.Proofs.Machine.Evaluation

/-!
# Batches of points

A program that yields its values from any buffers can be run at point after point in the same
buffers: what a point left there has no influence on the next one. So a batch has the values of
single evaluations, and it makes no difference how the points are cut into pieces.
-/

namespace Straightline

variable {α : Type}

/-- Where every entry of a list has an image, the images stand beside the entries. -/
theorem forall₂_filterMap {β γ : Type} {f : β → Option γ} {l : List β}
    (h : ∀ x ∈ l, (f x).isSome = true) :
    List.Forall₂ (fun x y => f x = some y) l (l.filterMap f) := by
  induction l with
  | nil => exact .nil
  | cons x l ih =>
    obtain ⟨y, hy⟩ := Option.isSome_iff_exists.mp (h x List.mem_cons_self)
    rw [List.filterMap_cons_some hy]
    exact .cons hy (ih fun z hz => h z (List.mem_cons_of_mem _ hz))

/-- Related lists have related entries. -/
theorem exists_getElem?_of_forall₂ {β γ : Type} {R : β → γ → Prop} {l : List β} {l' : List γ}
    (h : List.Forall₂ R l l') {k : Nat} {x : β} (hx : l[k]? = some x) :
    ∃ y, l'[k]? = some y ∧ R x y := by
  obtain ⟨hlt, rfl⟩ := List.getElem?_eq_some_iff.mp hx
  have hlt' : k < l'.length := h.length_eq ▸ hlt
  exact ⟨l'[k], List.getElem?_eq_getElem hlt', h.get hlt hlt'⟩

namespace Program

/-- The number of points that columns of one length have. -/
def points (columns : List (Array α)) : Nat := (columns.head?.map Array.size).getD 1

/-- Columns of one length have that number of points. -/
theorem size_eq_points {columns : List (Array α)}
    (h : ∀ c ∈ columns, ∀ d ∈ columns, c.size = d.size) :
    ∀ c ∈ columns, c.size = points columns := by
  cases columns with
  | nil => simp
  | cons d columns => exact fun c hc => h c hc d List.mem_cons_self

/-- The points are counted if there is one column for each input and all have one length. -/
theorem pointCount_eq_ok {p : Program α} {columns : List (Array α)} {n : Nat} :
    p.pointCount columns = .ok n ↔
      columns.length = p.inputCount ∧ (∀ c ∈ columns, c.size = points columns) ∧
        n = points columns := by
  unfold pointCount
  split
  · next hne => simp [hne]
  · next heq =>
    have hlength : columns.length = p.inputCount := Decidable.not_not.mp heq
    by_cases hsizes : ∀ c ∈ columns, c.size = points columns
    · have hany : ¬ (columns.any fun c => c.size ≠ points columns) = true := by simpa using hsizes
      rw [← points, if_neg hany]
      exact ⟨fun h => ⟨hlength, hsizes, (Except.ok.inj h).symm⟩, fun h => congrArg _ h.2.2.symm⟩
    · have hany : (columns.any fun c => c.size ≠ points columns) = true := by simpa using hsizes
      rw [← points, if_pos hany]
      simp [hsizes]

/-- The rows of all points. -/
def allRows (columns : List (Array α)) : List (List α) :=
  (List.range (points columns)).map (row columns)

section Fit

variable {p : Program α} {columns : List (Array α)} (hlength : columns.length = p.inputCount)
  (hsizes : ∀ c ∈ columns, c.size = points columns)

include hsizes in
/-- The row of a point has its value of every column. -/
theorem forall₂_row {point : Nat} (hpoint : point < points columns) :
    List.Forall₂ (fun column v => column[point]? = some v) columns (row columns point) := by
  refine forall₂_filterMap fun c hc => ?_
  simp [hsizes c hc, hpoint]

include hlength hsizes

theorem length_row {point : Nat} (hpoint : point < points columns) :
    (row columns point).length = p.inputCount :=
  (forall₂_row hsizes hpoint).length_eq.symm.trans hlength

theorem length_of_mem_allRows : ∀ r ∈ allRows columns, r.length = p.inputCount := by
  intro r hr
  obtain ⟨point, hpoint, rfl⟩ := List.mem_map.mp hr
  exact length_row hlength hsizes (List.mem_range.mp hpoint)

end Fit

/-- Putting the pieces of a list together gives the list. -/
theorem flatten_pieces {β : Type} (lengths : List Nat) (xs : List β) :
    (pieces lengths xs).flatten = xs := by
  induction lengths generalizing xs with
  | nil => simp [pieces]
  | cons n lengths ih => rw [pieces, List.flatten_cons, ih, List.take_append_drop]

section ByOutput

variable {p : Program α} {rows : List (List α)} (hrows : ∀ r ∈ rows, r.length = p.outputCount)

include hrows

/-- A list of values by output has a value of every row, since no row is too short. -/
theorem forall₂_byOutput {o : Nat} (ho : o < p.outputCount) :
    List.Forall₂ (fun r v => r[o]? = some v) rows (rows.filterMap (·[o]?)) := by
  refine forall₂_filterMap fun r hr => ?_
  simp [hrows r hr, ho]

theorem length_of_mem_byOutput {values : List α} (h : values ∈ p.byOutput rows) :
    values.length = rows.length := by
  obtain ⟨o, ho, rfl⟩ := List.mem_map.mp h
  exact (forall₂_byOutput hrows (List.mem_range.mp ho)).length_eq.symm

/-- Arranging rows by output moves every value to its output and point. -/
theorem exists_byOutput {o point : Nat} (ho : o < p.outputCount) {r : List α}
    (hr : rows[point]? = some r) :
    ∃ v, r[o]? = some v ∧ (p.byOutput rows)[o]?.bind (·[point]?) = some v := by
  obtain ⟨v, hv, hvalue⟩ := exists_getElem?_of_forall₂ (forall₂_byOutput hrows ho) hr
  have hcolumn : (p.byOutput rows)[o]? = some (rows.filterMap (·[o]?)) := by
    simp [byOutput, List.getElem?_range ho]
  exact ⟨v, hvalue, by rw [hcolumn, Option.bind_some, hv]⟩

end ByOutput

variable [Scalar α] {p : Program α} {columns : List (Array α)}

/-- A table of values is indexed by output, then by point: an entry is that output of the program on
the row of that point. -/
structure Tabulates (p : Program α) (columns : List (Array α)) (table : List (List α)) : Prop where
  /-- There is a list for each output. -/
  outputs : table.length = p.outputCount
  /-- It has a value for each point. -/
  points : ∀ values ∈ table, values.length = points columns
  /-- The values at a point are those of a single evaluation on its row. -/
  entries : ∀ point < Program.points columns, ∃ inputs values,
    List.Forall₂ (fun column v => column[point]? = some v) columns inputs ∧
      p.evaluate inputs = .ok values ∧
      ∀ o < p.outputCount, ∃ v, values[o]? = some v ∧ table[o]?.bind (·[point]?) = some v

/-- On inputs of the right number a program yields a value for each output. -/
def Responds (p : Program α) : Prop :=
  ∀ inputs : List α, inputs.length = p.inputCount →
    ∃ values, values.length = p.outputCount ∧ p.Yields inputs values

section Rows

variable {answer : List α → List α}
  (hanswer : ∀ inputs, inputs.length = p.inputCount →
    (answer inputs).length = p.outputCount ∧ p.Yields inputs (answer inputs))

/-- The outputs after a run from any buffers, which are again fit for a run. -/
theorem Yields.exists_run {inputs values : List α} (h : p.Yields inputs values)
    (hvalues : values.length = p.outputCount) {b : Buffers α}
    (hb : b.outputs.size = p.outputCount) :
    ∃ b', p.run b inputs = .ok b' ∧ b'.outputs.size = p.outputCount ∧
      outputsOf b' = .ok values := by
  obtain ⟨cells, hrun⟩ := h b hb
  exact ⟨_, hrun, by simpa using hvalues, readOutputs_map_some values 0⟩

include hanswer

/-- Points that share all buffers have the values of runs from fresh buffers. -/
theorem runRows_eq_ok {rows : List (List α)} (hrows : ∀ r ∈ rows, r.length = p.inputCount)
    {b : Buffers α} (hb : b.outputs.size = p.outputCount) :
    p.runRows rows b = .ok (rows.map answer) := by
  induction rows generalizing b with
  | nil => rfl
  | cons r rows ih =>
    obtain ⟨hlength, hyields⟩ := hanswer r (hrows r List.mem_cons_self)
    obtain ⟨b', hrun, hb', hout⟩ := hyields.exists_run hlength hb
    have hrest := ih (fun s hs => hrows s (List.mem_cons_of_mem _ hs)) hb'
    simp only [runRows, hrun, hout, hrest, bind, Except.bind, pure, Except.pure, List.map_cons]

/-- Points that share cells and stack have the values of runs from fresh buffers. -/
theorem runPiece_eq_ok {rows : List (List α)} (hrows : ∀ r ∈ rows, r.length = p.inputCount)
    (b : Buffers α) : p.runPiece rows b = .ok (rows.map answer) := by
  induction rows generalizing b with
  | nil => rfl
  | cons r rows ih =>
    obtain ⟨hlength, hyields⟩ := hanswer r (hrows r List.mem_cons_self)
    obtain ⟨b', hrun, _, hout⟩ :=
      hyields.exists_run hlength (b := { b with outputs := p.fresh.outputs }) (by simp [fresh])
    have hrest := ih (fun s hs => hrows s (List.mem_cons_of_mem _ hs)) b'
    simp only [runPiece, hrun, hout, hrest, bind, Except.bind, pure, Except.pure, List.map_cons]

/-- The rows of a batch, cut into pieces, have the values of their points in order. -/
theorem exists_mapM_runPiece {rows : List (List α)} (hrows : ∀ r ∈ rows, r.length = p.inputCount)
    (lengths : List Nat) (b : Buffers α) :
    ∃ parts, (pieces lengths rows).mapM (fun piece => p.runPiece piece b) = .ok parts ∧
      parts.flatten = rows.map answer := by
  have hpieces : ∀ piece ∈ pieces lengths rows, p.runPiece piece b = .ok (piece.map answer) := by
    intro piece hpiece
    refine runPiece_eq_ok hanswer (fun r hr => hrows r ?_) b
    rw [← flatten_pieces lengths rows]
    exact List.mem_flatten.mpr ⟨piece, hpiece, hr⟩
  refine ⟨_, mapM_eq_ok_map hpieces, ?_⟩
  rw [← List.map_flatten, flatten_pieces]

end Rows

section Table

variable (hlength : columns.length = p.inputCount)
  (hsizes : ∀ c ∈ columns, c.size = points columns)
  {answer : List α → List α}
  (hanswer : ∀ inputs, inputs.length = p.inputCount →
    (answer inputs).length = p.outputCount ∧ p.Yields inputs (answer inputs))

include hlength hsizes hanswer

/-- The answer to a batch. -/
theorem evaluateBatch_eq_ok :
    p.evaluateBatch columns = .ok (p.byOutput ((allRows columns).map answer)) := by
  have hpoints := pointCount_eq_ok.mpr ⟨hlength, hsizes, rfl⟩
  have hrun := runRows_eq_ok hanswer (length_of_mem_allRows hlength hsizes) (b := p.fresh)
    (by simp [fresh])
  simp only [evaluateBatch, hpoints, bind, Except.bind, allRows] at hrun ⊢
  rw [hrun]
  rfl

/-- The answer to a batch whose points are cut into pieces. -/
theorem evaluateParallel_eq_ok (lengths : List Nat) :
    p.evaluateParallel lengths columns = .ok (p.byOutput ((allRows columns).map answer)) := by
  have hpoints := pointCount_eq_ok.mpr ⟨hlength, hsizes, rfl⟩
  obtain ⟨parts, hparts, hflatten⟩ :=
    exists_mapM_runPiece hanswer (length_of_mem_allRows hlength hsizes) lengths p.fresh
  simp only [evaluateParallel, hpoints, bind, Except.bind]
  split
  · exact evaluateBatch_eq_ok hlength hsizes hanswer
  · have htasks : (Task.get ∘ fun piece => Task.spawn fun _ => p.runPiece piece p.fresh) =
        fun piece => p.runPiece piece p.fresh := rfl
    rw [allRows] at hparts
    rw [List.mapM_map, htasks, hparts, ← hflatten]
    rfl

/-- The answers, arranged by output, have the values of single evaluations. -/
theorem tabulates_byOutput : p.Tabulates columns (p.byOutput ((allRows columns).map answer)) := by
  have hanswers : ∀ r ∈ (allRows columns).map answer, r.length = p.outputCount := by
    intro r hr
    obtain ⟨inputs, hinputs, rfl⟩ := List.mem_map.mp hr
    exact (hanswer inputs (length_of_mem_allRows hlength hsizes inputs hinputs)).1
  refine ⟨by simp [byOutput], fun values hvalues => ?_, fun point hpoint => ?_⟩
  · rw [length_of_mem_byOutput hanswers hvalues]
    simp [allRows]
  · have hinputs := length_row hlength hsizes hpoint
    have hentry : ((allRows columns).map answer)[point]? = some (answer (row columns point)) := by
      simp [allRows, List.getElem?_range hpoint]
    exact ⟨_, _, forall₂_row hsizes hpoint, (hanswer _ hinputs).2.evaluate hinputs,
      fun o ho => exists_byOutput hanswers ho hentry⟩

end Table

/-- A batch with one column for each input, all of one length, has the values of single evaluations,
however its points are cut into pieces. -/
theorem Responds.exists_evaluateBatch (h : p.Responds) (hlength : columns.length = p.inputCount)
    (hsizes : ∀ c ∈ columns, c.size = points columns) :
    ∃ table, p.evaluateBatch columns = .ok table ∧ p.Tabulates columns table ∧
      ∀ lengths, p.evaluateParallel lengths columns = .ok table := by
  choose! answer hanswer using h
  exact ⟨_, evaluateBatch_eq_ok hlength hsizes hanswer, tabulates_byOutput hlength hsizes hanswer,
    evaluateParallel_eq_ok hlength hsizes hanswer⟩

/-- A batch of other columns fails, in one way. -/
theorem exists_error_of_misfit (p : Program α)
    (h : ¬ (columns.length = p.inputCount ∧ ∀ c ∈ columns, c.size = points columns)) :
    ∃ e, p.evaluateBatch columns = .error e ∧
      ∀ lengths, p.evaluateParallel lengths columns = .error e := by
  cases hcount : p.pointCount columns with
  | ok n =>
    obtain ⟨hlength, hsizes, _⟩ := pointCount_eq_ok.mp hcount
    exact absurd ⟨hlength, hsizes⟩ h
  | error e =>
    refine ⟨e, ?_, fun lengths => ?_⟩
    · simp only [evaluateBatch, hcount, bind, Except.bind]
    · simp only [evaluateParallel, hcount, bind, Except.bind]

/-- However the points are cut into pieces, the answer is the same. -/
theorem Responds.evaluateParallel_eq (h : p.Responds) (lengths : List Nat)
    (columns : List (Array α)) :
    p.evaluateParallel lengths columns = p.evaluateBatch columns := by
  by_cases hfit : columns.length = p.inputCount ∧ ∀ c ∈ columns, c.size = points columns
  · obtain ⟨table, hbatch, _, hparallel⟩ := h.exists_evaluateBatch hfit.1 hfit.2
    rw [hbatch, hparallel]
  · obtain ⟨e, hbatch, hparallel⟩ := exists_error_of_misfit p hfit
    rw [hbatch, hparallel]

/-- A batch succeeds exactly if there is one column for each input and all have one length. -/
theorem Responds.exists_evaluateBatch_iff (h : p.Responds) (columns : List (Array α)) :
    (∃ table, p.evaluateBatch columns = .ok table) ↔
      columns.length = p.inputCount ∧ ∀ c ∈ columns, ∀ d ∈ columns, c.size = d.size := by
  constructor
  · rintro ⟨table, htable⟩
    by_contra hfit
    have hunfit : ¬ (columns.length = p.inputCount ∧ ∀ c ∈ columns, c.size = points columns) :=
      fun hsame => hfit ⟨hsame.1, fun c hc d hd => (hsame.2 c hc).trans (hsame.2 d hd).symm⟩
    obtain ⟨e, hbatch, _⟩ := exists_error_of_misfit p hunfit
    rw [hbatch] at htable
    cases htable
  · rintro ⟨hlength, hsizes⟩
    obtain ⟨table, hbatch, _⟩ := h.exists_evaluateBatch hlength (size_eq_points hsizes)
    exact ⟨table, hbatch⟩

/-- The table of a batch has the values of single evaluations. -/
theorem Responds.tabulates (h : p.Responds) {table : List (List α)}
    (htable : p.evaluateBatch columns = .ok table) : p.Tabulates columns table := by
  obtain ⟨hlength, hsizes⟩ := (h.exists_evaluateBatch_iff columns).mp ⟨table, htable⟩
  obtain ⟨table', hbatch, htabulates, _⟩ := h.exists_evaluateBatch hlength (size_eq_points hsizes)
  obtain rfl : table' = table := Except.ok.inj (hbatch.symm.trans htable)
  exact htabulates

end Program

end Straightline
