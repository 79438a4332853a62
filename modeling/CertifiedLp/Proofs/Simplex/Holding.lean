import Mathlib
import CertifiedLp.Proofs.Simplex.Sizes
import CertifiedLp.Proofs.Solver.Transactions

/-!
# What the simplex solver holds

The simplex solver holds a linear program and a configuration, next to what solves leave behind: a
basis, a result, and the number of iterations. No call that changes the linear program looks at
those, so what it makes of the linear program is determined by the linear program.
-/

namespace CertifiedLp

namespace Simplex

open Solver (Determined Determines HoldSame)

/-- A column apart from its status. -/
def DenseColumn.bare (c : DenseColumn) : DenseColumn := { c with status := .basic }

/-- A row apart from its status. -/
def DenseRow.bare (r : DenseRow) : DenseRow := { r with status := .basic }

/-- The linear program and the configuration, without what solves leave behind. -/
def bare (s : Simplex) : Simplex where
  columns := s.columns.map DenseColumn.bare
  rows := s.rows.map DenseRow.bare
  parameters := s.parameters
  result := none
  iterations := 0

variable {s t u : Simplex} {kind : LineKind} {indices : Array Nat}

@[simp] theorem nrColumns_bare (s : Simplex) : s.bare.nrColumns = s.nrColumns := Array.size_map

@[simp] theorem nrRows_bare (s : Simplex) : s.bare.nrRows = s.nrRows := Array.size_map

theorem nrColumns_eq_of_bare (h : HoldSame bare s t) : t.nrColumns = s.nrColumns := by
  rw [← nrColumns_bare, ← nrColumns_bare s, show t.bare = s.bare from h]

theorem nrRows_eq_of_bare (h : HoldSame bare s t) : t.nrRows = s.nrRows := by
  rw [← nrRows_bare, ← nrRows_bare s, show t.bare = s.bare from h]

/-! ## Steps that are determined -/

/-- A step that does the same to what is held is determined. -/
theorem twin_modify {f : Simplex → Simplex} (hf : ∀ s, (f s).bare = (f s.bare).bare) :
    Twin (HoldSame bare) (HoldSame bare) (modify f : SolverM Simplex PUnit) (modify f) :=
  .modify fun s t h => show (f t).bare = (f s).bare by
    rw [hf t, hf s, show t.bare = s.bare from h]

@[simp] theorem map_bare_columns (columns : Array DenseColumn) :
    (columns.map DenseColumn.bare).map DenseColumn.bare = columns.map DenseColumn.bare := by
  rw [Array.map_map]
  rfl

@[simp] theorem map_bare_rows (rows : Array DenseRow) :
    (rows.map DenseRow.bare).map DenseRow.bare = rows.map DenseRow.bare := by
  rw [Array.map_map]
  rfl

theorem map_dropRange {α β : Type} (g : α → β) (xs : Array α) (first last : Nat) :
    (dropRange xs first last).map g = dropRange (xs.map g) first last := by
  rw [dropRange, dropRange, Array.map_append, Array.map_extract, Array.map_extract, Array.size_map]

theorem bare_pushColumn (objective : Rat) (bounds : Bounds) (xs : Array Rat) (s : Simplex) :
    (pushColumn objective bounds xs s).bare = (pushColumn objective bounds xs s.bare).bare := by
  have hrows : (s.rows.mapIdx fun i row =>
        { row with coefficients := row.coefficients.push (xs.getD i 0) }).map DenseRow.bare =
      ((s.rows.map DenseRow.bare).mapIdx fun i row =>
        { row with coefficients := row.coefficients.push (xs.getD i 0) }).map DenseRow.bare := by
    refine Array.ext_getElem? fun i => ?_
    rw [Array.getElem?_map, Array.getElem?_map, Array.getElem?_mapIdx, Array.getElem?_mapIdx,
      Array.getElem?_map]
    cases s.rows[i]? <;> rfl
  simp only [pushColumn, bare, Array.map_push, map_bare_columns, hrows]

theorem bare_pushRow (sides : Bounds) (xs : Array Rat) (s : Simplex) :
    (pushRow sides xs s).bare = (pushRow sides xs s.bare).bare := by
  simp only [pushRow, bare, Array.map_push, map_bare_columns, map_bare_rows]

theorem map_modify_map {α : Type} {g f : α → α} (hf : ∀ x, g (f x) = g (f (g x)))
    (hg : ∀ x, g (g x) = g x) (xs : Array α) (i : Nat) :
    (xs.modify i f).map g = ((xs.map g).modify i f).map g := by
  refine Array.ext_getElem? fun j => ?_
  rw [Array.getElem?_map, Array.getElem?_map, Array.getElem?_modify, Array.getElem?_modify,
    Array.getElem?_map]
  cases xs[j]? with
  | none => split <;> rfl
  | some x =>
    split
    · exact congrArg some (hf x)
    · exact congrArg some (hg x).symm

theorem bare_modifyColumn (j : Nat) {f : DenseColumn → DenseColumn}
    (hf : ∀ c, (f c).bare = (f c.bare).bare) (s : Simplex) :
    bare { s with columns := s.columns.modify j f } =
      bare { s.bare with columns := s.bare.columns.modify j f } := by
  simp only [bare, map_modify_map hf (fun _ => rfl) s.columns j, map_bare_rows]

theorem bare_modifyRow (i : Nat) {f : DenseRow → DenseRow}
    (hf : ∀ r, (f r).bare = (f r.bare).bare) (s : Simplex) :
    bare { s with rows := s.rows.modify i f } =
      bare { s.bare with rows := s.bare.rows.modify i f } := by
  simp only [bare, map_modify_map hf (fun _ => rfl) s.rows i, map_bare_columns]

theorem bare_withBasis (s : Simplex) (b : Basis) : (s.withBasis b).bare = s.bare := by
  have hcolumns : (s.columns.mapIdx fun j c =>
      { c with status := b.columns.getD j c.status }).map DenseColumn.bare =
        s.columns.map DenseColumn.bare := by
    refine Array.ext_getElem? fun j => ?_
    rw [Array.getElem?_map, Array.getElem?_map, Array.getElem?_mapIdx]
    cases s.columns[j]? <;> rfl
  have hrows : (s.rows.mapIdx fun i r =>
      { r with status := b.rows.getD i r.status }).map DenseRow.bare =
        s.rows.map DenseRow.bare := by
    refine Array.ext_getElem? fun i => ?_
    rw [Array.getElem?_map, Array.getElem?_map, Array.getElem?_mapIdx]
    cases s.rows[i]? <;> rfl
  simp only [bare, withBasis, hcolumns, hrows]

theorem twin_forgetResult : Twin (HoldSame bare) (HoldSame bare) forgetResult forgetResult :=
  .modify fun _ _ => id

theorem twin_configure (f : Parameters → Parameters) :
    Twin (HoldSame bare) (HoldSame bare) (configure f) (configure f) :=
  twin_modify fun s => by simp only [bare, map_bare_columns, map_bare_rows]

theorem twin_checkIndices (kind : LineKind) (indices : Array Nat) (count : Nat)
    (sizes : List Nat) : Twin (HoldSame bare) (HoldSame bare)
      (checkIndices kind indices count sizes) (checkIndices kind indices count sizes) := by
  refine .ite ?_ .throw_bind
  split
  · exact .throw _
  · exact .pure (fun _ _ => id) _

theorem twin_checkRange (kind : LineKind) (first last count : Nat) :
    Twin (HoldSame bare) (HoldSame bare) (checkRange kind first last count)
      (checkRange kind first last count) :=
  .ite (.throw _) (.pure (fun _ _ => id) _)

/-- What is read off the linear program is the same in both runs. -/
theorem determines_of_twin {x : SolverM Simplex Unit}
    (h : Twin (HoldSame bare) (HoldSame bare) x x) : Determines bare Anything x where
  ends s := (Ends.self x s).mono (fun _ _ _ => rfl) fun _ _ _ => trivial
  twin := h

/-! ## Calls -/

theorem twin_addColumns (batch : ColumnBatch) :
    Twin (HoldSame bare) (HoldSame bare) (addColumns batch) (addColumns batch) := by
  refine .get fun s t hst => ?_
  rw [nrRows_eq_of_bare hst]
  refine .bind (twin_checkIndices ..) fun _ => .ite ?_ .throw_bind
  refine .bind (.forIn fun _ => ?_) fun _ => twin_forgetResult
  refine .bind (.liftM _) fun _ => .bind (.liftM _) fun _ => .bind (twin_modify ?_) fun _ =>
    .pure (fun _ _ => id) _
  exact bare_pushColumn _ _ _

theorem twin_addRows (batch : RowBatch) :
    Twin (HoldSame bare) (HoldSame bare) (addRows batch) (addRows batch) := by
  refine .get fun s t hst => ?_
  rw [nrColumns_eq_of_bare hst]
  refine .bind (twin_checkIndices ..) fun _ => .ite ?_ .throw_bind
  refine .bind (.forIn fun _ => ?_) fun _ => twin_forgetResult
  refine .bind (.liftM _) fun _ => .bind (twin_modify ?_) fun _ => .pure (fun _ _ => id) _
  exact bare_pushRow _ _

theorem twin_deleteColumns (first last : Nat) :
    Twin (HoldSame bare) (HoldSame bare) (deleteColumns first last) (deleteColumns first last) := by
  refine .get fun s t hst => ?_
  rw [nrColumns_eq_of_bare hst]
  refine .bind (twin_checkRange ..) fun _ => .bind (twin_modify fun s => ?_) fun _ =>
    twin_forgetResult
  have hrows : (s.rows.map fun row =>
        { row with coefficients := dropRange row.coefficients first last }).map DenseRow.bare =
      ((s.rows.map DenseRow.bare).map fun row =>
        { row with coefficients := dropRange row.coefficients first last }).map DenseRow.bare := by
    rw [Array.map_map, Array.map_map, Array.map_map]
    rfl
  simp only [bare, map_dropRange, map_bare_columns, hrows]

theorem twin_deleteRows (first last : Nat) :
    Twin (HoldSame bare) (HoldSame bare) (deleteRows first last) (deleteRows first last) := by
  refine .get fun s t hst => ?_
  rw [nrRows_eq_of_bare hst]
  refine .bind (twin_checkRange ..) fun _ => .bind (twin_modify fun s => ?_) fun _ =>
    twin_forgetResult
  simp only [bare, map_dropRange, map_bare_columns, map_bare_rows]

theorem twin_changeObjective (indices : Array Nat) (values : Array Extended) :
    Twin (HoldSame bare) (HoldSame bare) (changeObjective indices values)
      (changeObjective indices values) := by
  refine .get fun s t hst => ?_
  rw [nrColumns_eq_of_bare hst]
  refine .bind (twin_checkIndices ..) fun _ => .bind (.forIn fun _ => ?_) fun _ => twin_forgetResult
  refine .bind (.liftM _) fun _ => ?_
  exact .bind (twin_modify (bare_modifyColumn _ fun _ => rfl)) fun _ => .pure (fun _ _ => id) _

theorem twin_changeBounds (indices : Array Nat) (lower upper : Array Extended) :
    Twin (HoldSame bare) (HoldSame bare) (changeBounds indices lower upper)
      (changeBounds indices lower upper) := by
  refine .get fun s t hst => ?_
  rw [nrColumns_eq_of_bare hst]
  refine .bind (twin_checkIndices ..) fun _ => .bind (.forIn fun _ => ?_) fun _ => twin_forgetResult
  exact .bind (twin_modify (bare_modifyColumn _ fun _ => rfl)) fun _ => .pure (fun _ _ => id) _

theorem twin_changeSides (indices : Array Nat) (lhs rhs : Array Extended) :
    Twin (HoldSame bare) (HoldSame bare) (changeSides indices lhs rhs)
      (changeSides indices lhs rhs) := by
  refine .get fun s t hst => ?_
  rw [nrRows_eq_of_bare hst]
  refine .bind (twin_checkIndices ..) fun _ => .bind (.forIn fun _ => ?_) fun _ => twin_forgetResult
  exact .bind (twin_modify (bare_modifyRow _ fun _ => rfl)) fun _ => .pure (fun _ _ => id) _

theorem twin_setInt (parameter : IntParameter) (value : Int) :
    Twin (HoldSame bare) (HoldSame bare) (setInt parameter value) (setInt parameter value) := by
  rw [setInt.eq_def]
  split
  · exact twin_configure _
  · exact .ite (twin_configure _) (.ite (.throw _) (twin_configure _))
  · split
    · exact twin_configure _
    · exact .throw _
  · exact twin_configure _

/-! ## The same objective coefficients again -/

/-- The objective coefficients that are accepted. -/
def acceptedCosts (items : List (Nat × Extended)) : List (Nat × Rat) :=
  items.filterMap fun x => (finiteEnd? x.2).map fun q => (x.1, q)

/-- Replace objective coefficients one by one. -/
def withCosts (columns : Array DenseColumn) (costs : List (Nat × Rat)) : Array DenseColumn :=
  costs.foldl (fun columns x => columns.modify x.1 ({ · with objective := x.2 })) columns

/-- A column with an objective coefficient, if there is one. -/
def DenseColumn.withCost (o : Option Rat) (c : DenseColumn) : DenseColumn :=
  { c with objective := o.getD c.objective }

theorem withCosts_concat (columns : Array DenseColumn) (costs : List (Nat × Rat)) (x : Nat × Rat) :
    withCosts columns (costs ++ [x]) =
      (withCosts columns costs).modify x.1 ({ · with objective := x.2 }) := by
  rw [withCosts, List.foldl_append]
  rfl

/-- Of several objective coefficients for a column, the last one counts. -/
theorem exists_getElem?_withCosts (costs : List (Nat × Rat)) (j : Nat) :
    ∃ o : Option Rat, ∀ columns : Array DenseColumn,
      (withCosts columns costs)[j]? = columns[j]?.map (DenseColumn.withCost o) := by
  induction costs using List.reverseRecOn with
  | nil => exact ⟨none, fun columns => (congrFun Option.map_id columns[j]?).symm⟩
  | append_singleton costs x ih =>
    obtain ⟨o, ho⟩ := ih
    by_cases hx : x.1 = j
    · refine ⟨some x.2, fun columns => ?_⟩
      rw [withCosts_concat, Array.getElem?_modify, if_pos hx, ho, Option.map_map]
      rfl
    · refine ⟨o, fun columns => ?_⟩
      rw [withCosts_concat, Array.getElem?_modify, if_neg hx, ho]

theorem withCosts_withCosts (columns : Array DenseColumn) (costs : List (Nat × Rat)) :
    withCosts (withCosts columns costs) costs = withCosts columns costs := by
  refine Array.ext_getElem? fun j => ?_
  obtain ⟨o, ho⟩ := exists_getElem?_withCosts costs j
  rw [ho, ho, Option.map_map]
  cases o <;> rfl

theorem map_bare_withCosts (columns : Array DenseColumn) (costs : List (Nat × Rat)) :
    (withCosts columns costs).map DenseColumn.bare =
      withCosts (columns.map DenseColumn.bare) costs := by
  refine Array.ext_getElem? fun j => ?_
  obtain ⟨o, ho⟩ := exists_getElem?_withCosts costs j
  rw [ho, Array.getElem?_map, ho, Array.getElem?_map, Option.map_map, Option.map_map]
  rfl

theorem acceptedCosts_concat {x : Nat × Extended} {q : Rat} (h : finiteEnd? x.2 = some q)
    (items : List (Nat × Extended)) :
    acceptedCosts (items ++ [x]) = acceptedCosts items ++ [(x.1, q)] := by
  simp only [acceptedCosts, List.filterMap_append, List.filterMap_cons, h, Option.map_some,
    List.filterMap_nil]

theorem ends_changeObjective (indices : Array Nat) (values : Array Extended) (s : Simplex) :
    Ends (changeObjective indices values) s
      (fun _ t => t = { s with
        columns := withCosts s.columns (acceptedCosts (indices.zip values).toList), result := none })
      fun _ _ => True := by
  rw [changeObjective, Ends.bind_iff, Ends.get_iff, Ends.bind_iff]
  refine (ends_checkIndices _ _ _ _ s).mono_ok fun _ t ht => ?_
  subst ht
  rw [Ends.bind_iff]
  refine (Ends.forIn_list (fun done u =>
    u = { t with columns := withCosts t.columns (acceptedCosts done) }) rfl ?_).mono_ok ?_
  · rintro done x rest _ - rfl
    rw [Ends.bind_iff, toCoefficient]
    cases hx : finiteEnd? x.2 with
    | none => trivial
    | some q =>
      refine ⟨rfl, ?_⟩
      rw [acceptedCosts_concat hx, withCosts_concat]
  · rintro _ _ rfl
    rfl

/-- To replace objective coefficients once more by the same values changes nothing. -/
theorem changeObjective_again {indices : Array Nat} {values : Array Extended}
    (h : (changeObjective indices values).run.run s = (.ok (), t)) (hu : u.bare = t.bare) :
    Ends (changeObjective indices values) u (fun _ v => v.bare = u.bare) fun _ _ => True := by
  have ht := (ends_changeObjective indices values s).of_ok h
  refine (ends_changeObjective indices values u).mono_ok ?_
  rintro _ _ rfl
  simp only [bare, Simplex.mk.injEq, and_true] at hu ⊢
  rw [map_bare_withCosts, hu.1, ht, ← map_bare_withCosts, withCosts_withCosts]

/-- What the simplex solver holds is determined by the calls that change it. -/
theorem determined : Determined bare Anything where
  infinity _ := rfl
  nrColumns := nrColumns_eq_of_bare
  nrRows := nrRows_eq_of_bare
  addColumns batch := determines_of_twin (twin_addColumns batch)
  addRows batch := determines_of_twin (twin_addRows batch)
  deleteColumns first last := determines_of_twin (twin_deleteColumns first last)
  deleteRows first last := determines_of_twin (twin_deleteRows first last)
  changeObjective columns values := determines_of_twin (twin_changeObjective columns values)
  changeObjective_again _ _ _ _ _ := changeObjective_again
  changeBounds columns lower upper := determines_of_twin (twin_changeBounds columns lower upper)
  changeSides rows lhs rhs := determines_of_twin (twin_changeSides rows lhs rhs)
  setInt parameter value := determines_of_twin (twin_setInt parameter value)
  restore snapshot s := by
    change Ends (setBasis snapshot) s _ _
    rw [setBasis, Ends.bind_iff, Ends.get_iff, Ends.ite_iff]
    exact ⟨fun _ => bare_withBasis s snapshot, fun _ => trivial⟩

/-- The simplex solver, brought back after calls that fail, is transactional. -/
theorem transactional_atomic : Solver.Transactional fun s : Atomic Simplex => s.inner.bare :=
  Atomic.transactional determined

end Simplex

end CertifiedLp
