import Mathlib
import CertifiedLp.Proofs.Extended
import CertifiedLp.Proofs.Relaxation.Unedited
import CertifiedLp.Proofs.Simplex.Holding

/-!
# The contents of the simplex solver

The linear program in the simplex solver is read entry by entry: the objective coefficient and the
bounds of a column, the sides of a row, and a coefficient of a row. Each call that changes the
linear program is described by what is read afterwards. A call that fails has refused a value, or it
has changed nothing.
-/

namespace CertifiedLp

/-- A value was refused as a coefficient. -/
def SolverError.isRejection : SolverError → Bool
  | .invalidInput (.coefficientNotFinite _) => true
  | _ => false

namespace Simplex

variable {s t u : Simplex} {i j k n m : Nat}

/-! ## Reading -/

/-- The objective coefficient of a column. -/
def cost? (s : Simplex) (i : Nat) : Option Rat := s.columns[i]?.map (·.objective)

/-- The bounds of a column. -/
def bounds? (s : Simplex) (i : Nat) : Option Bounds := s.columns[i]?.map (·.bounds)

/-- The sides of a row. -/
def sides? (s : Simplex) (j : Nat) : Option Bounds := s.rows[j]?.map (·.sides)

/-- The coefficient of a column in a row. -/
def cell? (s : Simplex) (j i : Nat) : Option Rat := s.rows[j]?.bind (·.coefficients[i]?)

/-- Every row has one coefficient for each column. -/
def Rectangular (s : Simplex) : Prop :=
  ∀ (j : Nat) row, s.rows[j]? = some row → row.coefficients.size = s.nrColumns

theorem Rectangular.congr (h : s.Rectangular) (hcolumns : t.nrColumns = s.nrColumns)
    (hrows : ∀ j : Nat, t.rows[j]?.map DenseRow.coefficients = s.rows[j]?.map DenseRow.coefficients) :
    t.Rectangular := by
  intro j row hrow
  have heq := hrows j
  rw [hrow, Option.map_some] at heq
  obtain ⟨row', hrow', hsame⟩ := Option.map_eq_some_iff.mp heq.symm
  rw [← hsame, h j row' hrow', hcolumns]

theorem cell?_congr
    (hrows : ∀ j : Nat, t.rows[j]?.map DenseRow.coefficients = s.rows[j]?.map DenseRow.coefficients)
    (j i : Nat) : t.cell? j i = s.cell? j i := by
  have heq := congrArg (·.bind (·[i]?)) (hrows j)
  rwa [Option.bind_map, Option.bind_map] at heq

/-- The second solver holds the first columns and the first rows of the first one. -/
structure Restricts (s t : Simplex) (n m : Nat) : Prop where
  nrColumns : t.nrColumns = n
  nrRows : t.nrRows = m
  rectangular : t.Rectangular
  cost : ∀ i < n, t.cost? i = s.cost? i
  bounds : ∀ i < n, t.bounds? i = s.bounds? i
  sides : ∀ j < m, t.sides? j = s.sides? j
  entry : ∀ j < m, ∀ i < n, t.cell? j i = s.cell? j i

theorem Rectangular.restricts (h : s.Rectangular) : Restricts s s s.nrColumns s.nrRows :=
  ⟨rfl, rfl, h, fun _ _ => rfl, fun _ _ => rfl, fun _ _ => rfl, fun _ _ _ _ => rfl⟩

theorem getElem?_rows_eq_none (h : s.nrRows ≤ j) : s.rows[j]? = none :=
  Array.getElem?_eq_none h

theorem getElem?_columns_eq_none (h : s.nrColumns ≤ i) : s.columns[i]? = none :=
  Array.getElem?_eq_none h

/-! ## Contents up to statuses -/

/-- Two solvers hold the same linear program. Their statuses may differ. -/
structure SameContents (s t : Simplex) : Prop where
  columns : t.columns.map DenseColumn.bare = s.columns.map DenseColumn.bare
  rows : t.rows.map DenseRow.bare = s.rows.map DenseRow.bare

instance : IsPreorder Simplex SameContents where
  refl _ := ⟨rfl, rfl⟩
  trans _ _ _ h h' := ⟨h'.columns.trans h.columns, h'.rows.trans h.rows⟩

theorem sameContents_of_bare (h : t.bare = s.bare) : SameContents s t :=
  ⟨congrArg Simplex.columns h, congrArg Simplex.rows h⟩

namespace SameContents

variable (h : SameContents s t)
include h

theorem column (i : Nat) : t.columns[i]?.map DenseColumn.bare = s.columns[i]?.map DenseColumn.bare := by
  rw [← Array.getElem?_map, ← Array.getElem?_map, h.columns]

theorem row (j : Nat) : t.rows[j]?.map DenseRow.bare = s.rows[j]?.map DenseRow.bare := by
  rw [← Array.getElem?_map, ← Array.getElem?_map, h.rows]

theorem nrColumns : t.nrColumns = s.nrColumns := by
  have hsize := congrArg Array.size h.columns
  rwa [Array.size_map, Array.size_map] at hsize

theorem nrRows : t.nrRows = s.nrRows := by
  have hsize := congrArg Array.size h.rows
  rwa [Array.size_map, Array.size_map] at hsize

theorem cost (i : Nat) : t.cost? i = s.cost? i := by
  have hcolumn := congrArg (Option.map DenseColumn.objective) (h.column i)
  rwa [Option.map_map, Option.map_map] at hcolumn

theorem bounds (i : Nat) : t.bounds? i = s.bounds? i := by
  have hcolumn := congrArg (Option.map DenseColumn.bounds) (h.column i)
  rwa [Option.map_map, Option.map_map] at hcolumn

theorem sides (j : Nat) : t.sides? j = s.sides? j := by
  have hrow := congrArg (Option.map DenseRow.sides) (h.row j)
  rwa [Option.map_map, Option.map_map] at hrow

theorem entry (j i : Nat) : t.cell? j i = s.cell? j i := by
  have hrow := congrArg (Option.bind · (·.coefficients[i]?)) (h.row j)
  rwa [Option.bind_map, Option.bind_map] at hrow

theorem rectangular (hs : s.Rectangular) : t.Rectangular := by
  intro j row hrow
  have hbare := h.row j
  rw [hrow, Option.map_some] at hbare
  obtain ⟨row', hrow', heq⟩ := Option.map_eq_some_iff.mp hbare.symm
  rw [h.nrColumns, ← hs j row' hrow']
  exact (congrArg (·.coefficients.size) heq).symm

theorem restricts (hs : s.Rectangular) : Restricts s t s.nrColumns s.nrRows where
  nrColumns := h.nrColumns
  nrRows := h.nrRows
  rectangular := h.rectangular hs
  cost i _ := h.cost i
  bounds i _ := h.bounds i
  sides j _ := h.sides j
  entry j _ i _ := h.entry j i

end SameContents

/-- What is read determines the linear program. -/
theorem Restricts.sameContents (hs : s.Rectangular) (h : Restricts s t s.nrColumns s.nrRows) :
    SameContents s t where
  columns := by
    refine Array.ext_getElem? fun i => ?_
    rw [Array.getElem?_map, Array.getElem?_map]
    rcases Nat.lt_or_ge i s.nrColumns with hi | hi
    · have hcost := h.cost i hi
      have hbounds := h.bounds i hi
      have hit : i < t.columns.size := hi.trans_eq h.nrColumns.symm
      rw [cost?, cost?, Array.getElem?_eq_getElem hit, Array.getElem?_eq_getElem hi,
        Option.map_some, Option.map_some, Option.some_inj] at hcost
      rw [bounds?, bounds?, Array.getElem?_eq_getElem hit, Array.getElem?_eq_getElem hi,
        Option.map_some, Option.map_some, Option.some_inj] at hbounds
      rw [Array.getElem?_eq_getElem hit, Array.getElem?_eq_getElem hi, Option.map_some,
        Option.map_some, DenseColumn.bare, DenseColumn.bare, hcost, hbounds]
    · rw [getElem?_columns_eq_none hi, getElem?_columns_eq_none (h.nrColumns.trans_le hi)]
  rows := by
    refine Array.ext_getElem? fun j => ?_
    rw [Array.getElem?_map, Array.getElem?_map]
    rcases Nat.lt_or_ge j s.nrRows with hj | hj
    · have hsides := h.sides j hj
      have hentry := h.entry j hj
      have hjt : j < t.rows.size := hj.trans_eq h.nrRows.symm
      have hsize := hs j s.rows[j] (Array.getElem?_eq_getElem hj)
      have hsizet := h.rectangular j t.rows[j] (Array.getElem?_eq_getElem hjt)
      simp only [cell?, Array.getElem?_eq_getElem hjt, Array.getElem?_eq_getElem hj,
        Option.bind_some] at hentry
      rw [sides?, sides?, Array.getElem?_eq_getElem hjt, Array.getElem?_eq_getElem hj,
        Option.map_some, Option.map_some, Option.some_inj] at hsides
      have hcoefficients : t.rows[j].coefficients = s.rows[j].coefficients := by
        refine Array.ext_getElem? fun i => ?_
        rcases Nat.lt_or_ge i s.nrColumns with hi | hi
        · exact hentry i hi
        · rw [Array.getElem?_eq_none (hsize.trans_le hi),
            Array.getElem?_eq_none ((hsizet.trans h.nrColumns).trans_le hi)]
      rw [Array.getElem?_eq_getElem hjt, Array.getElem?_eq_getElem hj, Option.map_some,
        Option.map_some, DenseRow.bare, DenseRow.bare, hcoefficients, hsides]
    · rw [getElem?_rows_eq_none hj, getElem?_rows_eq_none (h.nrRows.trans_le hj)]

/-- Solves, parameters and bases do not change the linear program. -/
theorem along_sameContents_configure (f : Parameters → Parameters) :
    Along SameContents (configure f) := .modify fun _ => ⟨rfl, rfl⟩

theorem sameContents_withBasis (s : Simplex) (b : Basis) : SameContents s (s.withBasis b) :=
  sameContents_of_bare (bare_withBasis s b)

theorem along_sameContents_setBasis (b : Basis) : Along SameContents (setBasis b) := fun s => by
  rw [setBasis, Ends.bind_iff, Ends.get_iff, Ends.ite_iff]
  exact ⟨fun _ => sameContents_withBasis s b, fun _ => refl s⟩

theorem along_sameContents_setInt (parameter : IntParameter) (value : Int) :
    Along SameContents (setInt parameter value) := by
  rw [setInt.eq_def]
  split
  · exact along_sameContents_configure _
  · exact .ite (along_sameContents_configure _) (.ite .throw (along_sameContents_configure _))
  · split
    · exact along_sameContents_configure _
    · exact .throw
  · exact along_sameContents_configure _

theorem along_sameContents_setReal (parameter : RealParameter) (value : Extended) :
    Along SameContents (setReal parameter value) := by
  rw [setReal.eq_def]
  split <;> exact along_sameContents_configure _

theorem along_sameContents_solve : Along SameContents (modify solve : SolverM Simplex Unit) :=
  .modify fun s => by
    rw [solve]
    exact ⟨(sameContents_withBasis s _).columns, (sameContents_withBasis s _).rows⟩

theorem respects_sameContents : Solver.Respects SameContents where
  setBasis := along_sameContents_setBasis
  setInt := along_sameContents_setInt
  setReal := along_sameContents_setReal
  solvePrimal := along_sameContents_solve
  solveDual := along_sameContents_solve
  restore := along_sameContents_setBasis

/-! ## Checks and coefficients -/

theorem ends_checkIndices_idle (kind : LineKind) (indices : Array Nat) (count : Nat)
    (sizes : List Nat) (s : Simplex) :
    Ends (checkIndices kind indices count sizes) s (fun _ t => t = s) fun _ t => t = s := by
  rw [checkIndices, Ends.ite_iff]
  refine ⟨fun _ => ?_, fun _ => rfl⟩
  split <;> rfl

/-- Positions in range are not refused. -/
theorem ends_checkIndices_of_lt {kind : LineKind} {indices : Array Nat} {count : Nat}
    {sizes : List Nat} (hsizes : ∀ n ∈ sizes, n = indices.size) (h : ∀ i ∈ indices, i < count)
    (s : Simplex) :
    Ends (checkIndices kind indices count sizes) s (fun _ t => t = s) fun _ _ => False := by
  have hall : sizes.all (· == indices.size) = true :=
    List.all_eq_true.mpr fun n hn => beq_iff_eq.mpr (hsizes n hn)
  have hfind : indices.find? (count ≤ ·) = none := by
    rw [Array.find?_eq_none]
    intro i hi
    simpa using h i hi
  rw [checkIndices, if_pos hall, hfind]
  rfl

theorem ends_liftM_iff {α : Type} {y : Except SolverError α} {Q : α → Simplex → Prop}
    {E : SolverError → Simplex → Prop} : Ends (liftM y : SolverM Simplex α) s Q E ↔
      (∀ a, y = .ok a → Q a s) ∧ ∀ e, y = .error e → E e s := by
  cases y <;> simp

theorem eq_finite_of_finiteEnd? {x : Extended} {q : Rat} (h : finiteEnd? x = some q) :
    x = .finite q := by
  cases x with
  | finite p =>
    rw [finiteEnd?] at h
    split at h
    · rw [Option.some.inj h]
    · cases h
  | negInf => cases h
  | posInf => cases h

theorem toCoefficient_eq_ok {x : Extended} {q : Rat} :
    toCoefficient x = .ok q ↔ finiteEnd? x = some q := by
  rw [toCoefficient]
  split <;> simp [*]

theorem isRejection_of_toCoefficient {x : Extended} {e : SolverError}
    (h : toCoefficient x = .error e) : e.isRejection = true := by
  rw [toCoefficient] at h
  split at h
  · cases h
  · cases h
    rfl

theorem toDense_concat (size : Nat) (items : List (Nat × Extended)) (x : Nat × Extended) :
    toDense size (items ++ [x]) = do
      let line ← toDense size items
      let coefficient ← toCoefficient x.2
      return line.setIfInBounds x.1 coefficient := by
  simp only [toDense, List.foldlM_append, List.foldlM_cons, List.foldlM_nil, bind_pure]

theorem isRejection_of_toDense {size : Nat} {items : List (Nat × Extended)} {e : SolverError}
    (h : toDense size items = .error e) : e.isRejection = true := by
  induction items using List.reverseRecOn with
  | nil => cases h
  | append_singleton items x ih =>
    rw [toDense_concat] at h
    cases hline : toDense size items with
    | error e' =>
      rw [hline] at h
      exact ih (hline.trans h)
    | ok line =>
      rw [hline] at h
      cases hx : toCoefficient x.2 with
      | error e' =>
        rw [hx] at h
        cases h
        exact isRejection_of_toCoefficient hx
      | ok q =>
        rw [hx] at h
        cases h

/-- A dense line has the values of the items, where the items for a position agree. -/
theorem toDense_spec {size : Nat} {items : List (Nat × Extended)} {dense : Array Rat}
    (h : toDense size items = .ok dense) : dense.size = size ∧ ∀ p < size, ∀ q : Rat,
      (∀ x ∈ items, x.1 = p → x.2.rational = q) → ((∀ x ∈ items, x.1 ≠ p) → q = 0) →
        dense[p]? = some q := by
  induction items using List.reverseRecOn generalizing dense with
  | nil =>
    cases h
    refine ⟨Array.size_replicate, fun p hp q _ hzero => ?_⟩
    rw [hzero (by simp), Array.getElem?_replicate, if_pos hp]
  | append_singleton items x ih =>
    rw [toDense_concat] at h
    cases hline : toDense size items with
    | error e =>
      rw [hline] at h
      cases h
    | ok before =>
      obtain ⟨hsize, hentries⟩ := ih hline
      rw [hline] at h
      cases hx : toCoefficient x.2 with
      | error e =>
        rw [hx] at h
        cases h
      | ok a =>
        rw [hx] at h
        cases h
        refine ⟨Array.size_setIfInBounds.trans hsize, fun p hp q hvalues hzero => ?_⟩
        rw [Array.getElem?_setIfInBounds]
        split
        · next heq =>
          have hq : x.2.rational = q := hvalues x (by simp) heq
          rw [eq_finite_of_finiteEnd? (toCoefficient_eq_ok.mp hx)] at hq
          rw [if_pos (hsize.symm ▸ heq.symm ▸ hp)]
          exact congrArg some hq
        · next hne =>
          refine hentries p hp q (fun y hy => hvalues y (by simp [hy])) fun hnone => hzero ?_
          intro y hy
          rcases List.mem_append.mp hy with hy | hy
          · exact hnone y hy
          · rw [List.mem_singleton.mp hy]
            exact hne

/-! ## Deleting -/

theorem getElem?_extract_zero {α : Type} {xs : Array α} {n : Nat} (h : i < n) :
    (xs.extract 0 n)[i]? = xs[i]? := by
  rcases Nat.lt_or_ge i xs.size with hi | hi
  · rw [Array.getElem?_extract, if_pos (by omega), Nat.zero_add]
  · rw [Array.getElem?_eq_none hi, Array.getElem?_eq_none (by simp; omega)]

/-- To delete what comes last is to keep what is before it. -/
theorem dropRange_tail {α : Type} {xs : Array α} {first size : Nat} (hsize : xs.size = size)
    (h : first < size) : dropRange xs first (size - 1) = xs.extract 0 first := by
  subst hsize
  rw [dropRange, Nat.sub_add_cancel (Nat.zero_lt_of_lt h)]
  simp

theorem ends_checkRange_tail {kind : LineKind} {first count : Nat} (h : first < count)
    (s : Simplex) :
    Ends (checkRange kind first (count - 1) count) s (fun _ t => t = s) fun _ _ => False := by
  rw [checkRange, if_neg (by simp; omega)]
  rfl

/-- Deleting the last columns keeps the ones before them. It cannot fail. -/
theorem ends_deleteColumns_tail (hs : s.Rectangular) {first : Nat} (h : first < s.nrColumns) :
    Ends (deleteColumns first (s.nrColumns - 1)) s (fun _ t => Restricts s t first s.nrRows)
      fun _ _ => False := by
  rw [deleteColumns, Ends.bind_iff, Ends.get_iff, Ends.bind_iff]
  refine (ends_checkRange_tail h s).mono_ok ?_
  rintro _ _ rfl
  simp only [Ends.bind_iff, Ends.modify_iff, forgetResult]
  rename_i s
  have hcolumns : dropRange s.columns first (s.nrColumns - 1) = s.columns.extract 0 first :=
    dropRange_tail rfl h
  have hrow {j : Nat} {row : DenseRow} (hrow : s.rows[j]? = some row) :
      dropRange row.coefficients first (s.nrColumns - 1) = row.coefficients.extract 0 first :=
    dropRange_tail (hs j row hrow) h
  have hnrColumns : (s.columns.extract 0 first).size = first := by
    have hle : first ≤ s.columns.size := Nat.le_of_lt h
    simp [hle]
  rw [hcolumns]
  refine ⟨hnrColumns, Array.size_map, fun j row' hrow' => ?_, fun i hi => ?_, fun i hi => ?_,
    fun j hj => ?_, fun j hj i hi => ?_⟩
  · rw [Array.getElem?_map] at hrow'
    obtain ⟨row, hj, rfl⟩ := Option.map_eq_some_iff.mp hrow'
    have hle : first ≤ row.coefficients.size := (hs j row hj).symm ▸ Nat.le_of_lt h
    rw [hrow hj, nrColumns, hnrColumns, Array.size_extract]
    omega
  · rw [cost?, cost?, getElem?_extract_zero hi]
  · rw [bounds?, bounds?, getElem?_extract_zero hi]
  · rw [sides?, sides?, Array.getElem?_map, Option.map_map]
    rfl
  · rw [cell?, cell?, Array.getElem?_map, Option.bind_map]
    cases hj : s.rows[j]? with
    | none => rfl
    | some row =>
      rw [Option.bind_some, Option.bind_some, Function.comp, hrow hj, getElem?_extract_zero hi]

/-- Deleting the last rows keeps the ones before them. It cannot fail. -/
theorem ends_deleteRows_tail (hs : s.Rectangular) {first : Nat} (h : first < s.nrRows) :
    Ends (deleteRows first (s.nrRows - 1)) s (fun _ t => Restricts s t s.nrColumns first)
      fun _ _ => False := by
  rw [deleteRows, Ends.bind_iff, Ends.get_iff, Ends.bind_iff]
  refine (ends_checkRange_tail h s).mono_ok ?_
  rintro _ _ rfl
  simp only [Ends.bind_iff, Ends.modify_iff, forgetResult]
  rename_i s
  have hrows : dropRange s.rows first (s.nrRows - 1) = s.rows.extract 0 first :=
    dropRange_tail rfl h
  have hnrRows : (s.rows.extract 0 first).size = first := by
    have hle : first ≤ s.rows.size := Nat.le_of_lt h
    simp [hle]
  rw [hrows]
  refine ⟨rfl, hnrRows, fun j row hrow => ?_, fun i hi => rfl, fun i hi => rfl, fun j hj => ?_,
    fun j hj i hi => ?_⟩
  · have hj : j < first := hnrRows ▸ (Array.getElem?_eq_some_iff.mp hrow).1
    rw [getElem?_extract_zero hj] at hrow
    exact hs j row hrow
  · rw [sides?, sides?, getElem?_extract_zero hj]
  · rw [cell?, cell?, getElem?_extract_zero hj]

/-! ## Adding columns -/

section PushColumn

variable {objective : Rat} {bounds : Bounds} {xs : Array Rat}

theorem cost?_pushColumn : (pushColumn objective bounds xs s).cost? i =
    if i = s.nrColumns then some objective else s.cost? i := by
  rw [cost?, cost?, pushColumn, Array.getElem?_push]
  split
  · next h => exact (if_pos h).symm
  · next h => exact (if_neg h).symm

theorem bounds?_pushColumn : (pushColumn objective bounds xs s).bounds? i =
    if i = s.nrColumns then some bounds else s.bounds? i := by
  rw [bounds?, bounds?, pushColumn, Array.getElem?_push]
  split
  · next h => exact (if_pos h).symm
  · next h => exact (if_neg h).symm

theorem sides?_pushColumn : (pushColumn objective bounds xs s).sides? j = s.sides? j := by
  rw [sides?, sides?, pushColumn, Array.getElem?_mapIdx, Option.map_map]
  rfl

theorem cell?_pushColumn_self (hs : s.Rectangular) (hj : j < s.nrRows) :
    (pushColumn objective bounds xs s).cell? j s.nrColumns = some (xs.getD j 0) := by
  have hrow : s.rows[j]? = some s.rows[j] := Array.getElem?_eq_getElem hj
  rw [cell?, pushColumn, Array.getElem?_mapIdx, hrow, Option.map_some, Option.bind_some,
    Array.getElem?_push, if_pos (hs j _ hrow).symm]

theorem cell?_pushColumn_of_lt (hs : s.Rectangular) (hi : i < s.nrColumns) :
    (pushColumn objective bounds xs s).cell? j i = s.cell? j i := by
  rw [cell?, cell?, pushColumn, Array.getElem?_mapIdx]
  cases hrow : s.rows[j]? with
  | none => rfl
  | some row =>
    rw [Option.map_some, Option.bind_some, Option.bind_some, Array.getElem?_push,
      if_neg (by rw [hs j row hrow]; omega)]

theorem rectangular_pushColumn (hs : s.Rectangular) :
    (pushColumn objective bounds xs s).Rectangular := by
  intro j row' hrow'
  rw [pushColumn, Array.getElem?_mapIdx] at hrow'
  obtain ⟨row, hrow, rfl⟩ := Option.map_eq_some_iff.mp hrow'
  rw [Array.size_push, hs j row hrow, nrColumns_pushColumn]

end PushColumn

/-- The second solver also holds the first columns of a batch. -/
structure HoldsColumns (batch : ColumnBatch) (s t : Simplex) (k : Nat) : Prop where
  old : Restricts t s s.nrColumns s.nrRows
  nrColumns : t.nrColumns = s.nrColumns + k
  nrRows : t.nrRows = s.nrRows
  rectangular : t.Rectangular
  cost : ∀ n < k, t.cost? (s.nrColumns + n) = finiteEnd? (batch.objective.getD n 0)
  bounds : ∀ n < k, t.bounds? (s.nrColumns + n) =
    some (toBounds (batch.lower.getD n 0) (batch.upper.getD n 0))
  entries : ∀ n < k, ∃ dense, toDense s.nrRows (batch.entries.items n) = .ok dense ∧
    ∀ j < s.nrRows, t.cell? j (s.nrColumns + n) = some (dense.getD j 0)

theorem holdsColumns_zero (hs : s.Rectangular) (batch : ColumnBatch) :
    HoldsColumns batch s s 0 :=
  ⟨hs.restricts, rfl, rfl, hs, fun _ h => absurd h (Nat.not_lt_zero _),
    fun _ h => absurd h (Nat.not_lt_zero _), fun _ h => absurd h (Nat.not_lt_zero _)⟩

theorem HoldsColumns.push {batch : ColumnBatch} (h : HoldsColumns batch s t k) {q : Rat}
    (hq : finiteEnd? (batch.objective.getD k 0) = some q) {dense : Array Rat}
    (hdense : toDense s.nrRows (batch.entries.items k) = .ok dense) :
    HoldsColumns batch s
      (pushColumn q (toBounds (batch.lower.getD k 0) (batch.upper.getD k 0)) dense t) (k + 1) where
  old := ⟨rfl, rfl, h.old.rectangular, fun i hi => by
      rw [h.old.cost i hi, cost?_pushColumn, if_neg (by rw [h.nrColumns]; omega)], fun i hi => by
      rw [h.old.bounds i hi, bounds?_pushColumn, if_neg (by rw [h.nrColumns]; omega)],
    fun j hj => by rw [h.old.sides j hj, sides?_pushColumn], fun j hj i hi => by
      rw [h.old.entry j hj i hi,
        cell?_pushColumn_of_lt h.rectangular (by rw [h.nrColumns]; omega)]⟩
  nrColumns := by rw [nrColumns_pushColumn, h.nrColumns, Nat.add_assoc]
  nrRows := by rw [nrRows_pushColumn, h.nrRows]
  rectangular := rectangular_pushColumn h.rectangular
  cost n hn := by
    rw [cost?_pushColumn, h.nrColumns]
    rcases Nat.lt_succ_iff_lt_or_eq.mp hn with hlt | rfl
    · rw [if_neg (by omega), h.cost n hlt]
    · rw [if_pos rfl, hq]
  bounds n hn := by
    rw [bounds?_pushColumn, h.nrColumns]
    rcases Nat.lt_succ_iff_lt_or_eq.mp hn with hlt | rfl
    · rw [if_neg (by omega), h.bounds n hlt]
    · rw [if_pos rfl]
  entries n hn := by
    rcases Nat.lt_succ_iff_lt_or_eq.mp hn with hlt | rfl
    · obtain ⟨dense', hdense', hentries⟩ := h.entries n hlt
      refine ⟨dense', hdense', fun j hj => ?_⟩
      rw [cell?_pushColumn_of_lt h.rectangular (by rw [h.nrColumns]; omega), hentries j hj]
    · refine ⟨dense, hdense, fun j hj => ?_⟩
      rw [← h.nrColumns, cell?_pushColumn_self h.rectangular (by rw [h.nrRows]; exact hj)]

/-- Columns that are added are held as the batch says. -/
theorem ends_addColumns_held (hs : s.Rectangular) (batch : ColumnBatch) :
    Ends (addColumns batch) s (fun _ t => HoldsColumns batch s t batch.size)
      fun e t => e.isRejection = true ∨ t = s := by
  rw [addColumns, Ends.bind_iff, Ends.get_iff, Ends.bind_iff]
  refine (ends_checkIndices_idle _ _ _ _ s).mono ?_ fun _ _ => .inr
  rintro _ _ rfl
  rename_i s
  rw [Ends.ite_iff]
  refine ⟨fun _ => ?_, fun _ => .inr rfl⟩
  rw [Ends.bind_iff]
  refine (Ends.forIn_range (fun k t => HoldsColumns batch s t k) (holdsColumns_zero hs batch)
    fun k t _ ht => ?_).mono_ok fun _ t ht => ?_
  · simp only [Ends.bind_iff, ends_liftM_iff]
    refine ⟨fun q hq => ⟨fun dense hdense => ?_, fun e he => .inl (isRejection_of_toDense he)⟩,
      fun e he => .inl (isRejection_of_toCoefficient he)⟩
    rw [Ends.modify_iff, Ends.pure_iff]
    exact ⟨rfl, ht.push (toCoefficient_eq_ok.mp hq) hdense⟩
  · rw [forgetResult, Ends.modify_iff]
    exact { ht with old := { ht.old with } }

/-! ## Adding rows -/

section PushRow

variable {sides : Bounds} {xs : Array Rat}

theorem sides?_pushRow : (pushRow sides xs s).sides? j =
    if j = s.nrRows then some sides else s.sides? j := by
  rw [sides?, sides?, pushRow, Array.getElem?_push]
  split
  · next h => exact (if_pos h).symm
  · next h => exact (if_neg h).symm

theorem cell?_pushRow : (pushRow sides xs s).cell? j i =
    if j = s.nrRows then xs[i]? else s.cell? j i := by
  rw [cell?, cell?, pushRow, Array.getElem?_push]
  split
  · next h => exact (if_pos h).symm
  · next h => exact (if_neg h).symm

theorem rectangular_pushRow (hs : s.Rectangular) (hxs : xs.size = s.nrColumns) :
    (pushRow sides xs s).Rectangular := by
  intro j row hrow
  rw [pushRow, Array.getElem?_push] at hrow
  split at hrow
  · cases hrow
    exact hxs
  · exact hs j row hrow

end PushRow

/-- The second solver also holds the first rows of a batch. -/
structure HoldsRows (batch : RowBatch) (s t : Simplex) (k : Nat) : Prop where
  old : Restricts t s s.nrColumns s.nrRows
  nrColumns : t.nrColumns = s.nrColumns
  nrRows : t.nrRows = s.nrRows + k
  rectangular : t.Rectangular
  sides : ∀ n < k, t.sides? (s.nrRows + n) =
    some (toBounds (batch.lhs.getD n 0) (batch.rhs.getD n 0))
  entries : ∀ n < k, ∃ dense, toDense s.nrColumns (batch.entries.items n) = .ok dense ∧
    ∀ i, t.cell? (s.nrRows + n) i = dense[i]?

theorem holdsRows_zero (hs : s.Rectangular) (batch : RowBatch) : HoldsRows batch s s 0 :=
  ⟨hs.restricts, rfl, rfl, hs, fun _ h => absurd h (Nat.not_lt_zero _),
    fun _ h => absurd h (Nat.not_lt_zero _)⟩

theorem HoldsRows.push {batch : RowBatch} (h : HoldsRows batch s t k) {dense : Array Rat}
    (hdense : toDense s.nrColumns (batch.entries.items k) = .ok dense) :
    HoldsRows batch s (pushRow (toBounds (batch.lhs.getD k 0) (batch.rhs.getD k 0)) dense t)
      (k + 1) where
  old := ⟨rfl, rfl, h.old.rectangular, h.old.cost, h.old.bounds, fun j hj => by
      rw [h.old.sides j hj, sides?_pushRow, if_neg (by rw [h.nrRows]; omega)],
    fun j hj i hi => by
      rw [h.old.entry j hj i hi, cell?_pushRow, if_neg (by rw [h.nrRows]; omega)]⟩
  nrColumns := h.nrColumns
  nrRows := by rw [nrRows_pushRow, h.nrRows, Nat.add_assoc]
  rectangular := rectangular_pushRow h.rectangular ((toDense_spec hdense).1.trans h.nrColumns.symm)
  sides n hn := by
    rw [sides?_pushRow, h.nrRows]
    rcases Nat.lt_succ_iff_lt_or_eq.mp hn with hlt | rfl
    · rw [if_neg (by omega), h.sides n hlt]
    · rw [if_pos rfl]
  entries n hn := by
    rcases Nat.lt_succ_iff_lt_or_eq.mp hn with hlt | rfl
    · obtain ⟨dense', hdense', hentries⟩ := h.entries n hlt
      refine ⟨dense', hdense', fun i => ?_⟩
      rw [cell?_pushRow, h.nrRows, if_neg (by omega), hentries i]
    · refine ⟨dense, hdense, fun i => ?_⟩
      rw [cell?_pushRow, h.nrRows, if_pos rfl]

/-- Rows that are added are held as the batch says. -/
theorem ends_addRows_held (hs : s.Rectangular) (batch : RowBatch) :
    Ends (addRows batch) s (fun _ t => HoldsRows batch s t batch.size)
      fun e t => e.isRejection = true ∨ t = s := by
  rw [addRows, Ends.bind_iff, Ends.get_iff, Ends.bind_iff]
  refine (ends_checkIndices_idle _ _ _ _ s).mono ?_ fun _ _ => .inr
  rintro _ _ rfl
  rename_i s
  rw [Ends.ite_iff]
  refine ⟨fun _ => ?_, fun _ => .inr rfl⟩
  rw [Ends.bind_iff]
  refine (Ends.forIn_range (fun k t => HoldsRows batch s t k) (holdsRows_zero hs batch)
    fun k t _ ht => ?_).mono_ok fun _ t ht => ?_
  · simp only [Ends.bind_iff, ends_liftM_iff]
    refine ⟨fun dense hdense => ?_, fun e he => .inl (isRejection_of_toDense he)⟩
    rw [Ends.modify_iff, Ends.pure_iff]
    exact ⟨rfl, ht.push hdense⟩
  · rw [forgetResult, Ends.modify_iff]
    exact { ht with old := { ht.old with } }

/-! ## Changing values -/

/-- A column with another objective coefficient. -/
def DenseColumn.withObjective (objective : Rat) (c : DenseColumn) : DenseColumn :=
  { c with objective }

/-- A column with other bounds. -/
def DenseColumn.withBounds (bounds : Bounds) (c : DenseColumn) : DenseColumn := { c with bounds }

/-- A row with other sides. -/
def DenseRow.withSides (sides : Bounds) (r : DenseRow) : DenseRow := { r with sides }

/-- What is not changed stays. -/
theorem getElem?_foldl_modify_of_ne {α β : Type} {items : List (Nat × β)} {f : β → α → α}
    (hne : ∀ x ∈ items, x.1 ≠ i) (xs : Array α) :
    (items.foldl (fun xs x => xs.modify x.1 (f x.2)) xs)[i]? = xs[i]? := by
  induction items generalizing xs with
  | nil => rfl
  | cons x items ih =>
    rw [List.foldl_cons, ih (fun y hy => hne y (by simp [hy])), Array.getElem?_modify,
      if_neg (hne x (by simp))]

/-- Of several changes of an entry that agree, the last one counts. -/
theorem getElem?_foldl_modify {α β : Type} {items : List (Nat × β)} {f : β → α → α} {g : α → α}
    (hg : ∀ x ∈ items, x.1 = i → f x.2 = g) (hidem : ∀ a, g (g a) = g a)
    (hsome : ∃ x ∈ items, x.1 = i) (xs : Array α) :
    (items.foldl (fun xs x => xs.modify x.1 (f x.2)) xs)[i]? = xs[i]?.map g := by
  induction items generalizing xs with
  | nil => simp at hsome
  | cons x items ih =>
    rw [List.foldl_cons]
    by_cases hrest : ∃ y ∈ items, y.1 = i
    · rw [ih (fun y hy => hg y (by simp [hy])) hrest, Array.getElem?_modify]
      split
      · next heq =>
        rw [hg x (by simp) heq, Option.map_map]
        exact congrArg (Option.map · xs[i]?) (funext hidem)
      · rfl
    · have hne : ∀ y ∈ items, y.1 ≠ i := fun y hy heq => hrest ⟨y, hy, heq⟩
      have hx : x.1 = i := by
        obtain ⟨y, hy, heq⟩ := hsome
        rcases List.mem_cons.mp hy with rfl | hy
        · exact heq
        · exact absurd heq (hne y hy)
      rw [getElem?_foldl_modify_of_ne hne, Array.getElem?_modify, if_pos hx, hg x (by simp) hx]

/-- Objective coefficients are changed, if none of them is refused. -/
theorem ends_changeObjective_held (indices : Array Nat) (values : Array Extended) (s : Simplex) :
    Ends (changeObjective indices values) s (fun _ t =>
        (∀ x ∈ (indices.zip values).toList, (finiteEnd? x.2).isSome = true) ∧ t = { s with
          columns := (indices.zip values).toList.foldl (fun columns x =>
            columns.modify x.1 (DenseColumn.withObjective ((finiteEnd? x.2).getD 0))) s.columns
          result := none })
      fun e t => e.isRejection = true ∨ t = s := by
  rw [changeObjective, Ends.bind_iff, Ends.get_iff, Ends.bind_iff]
  refine (ends_checkIndices_idle _ _ _ _ s).mono (fun _ t ht => ?_) fun _ _ => .inr
  subst ht
  rw [Ends.bind_iff]
  refine (Ends.forIn_list (fun done u => (∀ x ∈ done, (finiteEnd? x.2).isSome = true) ∧ u = { t with
    columns := done.foldl (fun columns x =>
      columns.modify x.1 (DenseColumn.withObjective ((finiteEnd? x.2).getD 0))) t.columns })
    ⟨by simp, rfl⟩ ?_).mono_ok ?_
  · rintro done x rest _ - ⟨hdone, rfl⟩
    rw [Ends.bind_iff, ends_liftM_iff]
    refine ⟨fun q hq => ?_, fun e he => .inl (isRejection_of_toCoefficient he)⟩
    rw [toCoefficient_eq_ok] at hq
    rw [Ends.bind_iff, Ends.modify_iff, Ends.pure_iff, List.foldl_append]
    have hq' : q = (finiteEnd? x.2).getD 0 := by rw [hq, Option.getD_some]
    refine ⟨rfl, fun y hy => ?_, by rw [hq']; rfl⟩
    rcases List.mem_append.mp hy with hy | hy
    · exact hdone y hy
    · rw [List.mem_singleton.mp hy, hq]
      rfl
  · rintro _ _ ⟨hall, rfl⟩
    exact ⟨hall, rfl⟩

/-- Bounds of columns that exist are changed without fail. -/
theorem ends_changeBounds_held {indices : Array Nat} {lower upper : Array Extended}
    (hlower : lower.size = indices.size) (hupper : upper.size = indices.size)
    (h : ∀ i ∈ indices, i < s.nrColumns) :
    Ends (changeBounds indices lower upper) s (fun _ t => t = { s with
        columns := (indices.zip (lower.zip upper)).toList.foldl (fun columns x =>
          columns.modify x.1 (DenseColumn.withBounds (toBounds x.2.1 x.2.2))) s.columns
        result := none }) fun _ _ => False := by
  rw [changeBounds, Ends.bind_iff, Ends.get_iff, Ends.bind_iff]
  refine (ends_checkIndices_of_lt (by simp [hlower, hupper]) h s).mono_ok fun _ t ht => ?_
  subst ht
  rw [Ends.bind_iff]
  refine (Ends.forIn_list (fun done u => u = { t with
    columns := done.foldl (fun columns x =>
      columns.modify x.1 (DenseColumn.withBounds (toBounds x.2.1 x.2.2))) t.columns }) rfl
    ?_).mono_ok ?_
  · rintro done x rest _ - rfl
    rw [List.foldl_append]
    exact ⟨rfl, rfl⟩
  · rintro _ _ rfl
    rfl

/-- Sides of rows are changed, or nothing is. -/
theorem ends_changeSides_held (indices : Array Nat) (lhs rhs : Array Extended) (s : Simplex) :
    Ends (changeSides indices lhs rhs) s (fun _ t => t = { s with
        rows := (indices.zip (lhs.zip rhs)).toList.foldl (fun rows x =>
          rows.modify x.1 (DenseRow.withSides (toBounds x.2.1 x.2.2))) s.rows
        result := none }) fun _ t => t = s := by
  rw [changeSides, Ends.bind_iff, Ends.get_iff, Ends.bind_iff]
  refine (ends_checkIndices_idle _ _ _ _ s).mono_ok fun _ t ht => ?_
  subst ht
  rw [Ends.bind_iff]
  refine (Ends.forIn_list (fun done u => u = { t with
    rows := done.foldl (fun rows x =>
      rows.modify x.1 (DenseRow.withSides (toBounds x.2.1 x.2.2))) t.rows }) rfl ?_).mono_ok ?_
  · rintro done x rest _ - rfl
    rw [List.foldl_append]
    exact ⟨rfl, rfl⟩
  · rintro _ _ rfl
    rfl

/-- Other parts of the entries stay. -/
theorem map_foldl_modify {α β γ : Type} {items : List (Nat × β)} {f : β → α → α} {g : α → γ}
    (hg : ∀ b a, g (f b a) = g a) (xs : Array α) :
    (items.foldl (fun xs x => xs.modify x.1 (f x.2)) xs)[i]?.map g = xs[i]?.map g := by
  induction items generalizing xs with
  | nil => rfl
  | cons x items ih =>
    rw [List.foldl_cons, ih, Array.getElem?_modify]
    split
    · rw [Option.map_map]
      exact congrArg (Option.map · xs[i]?) (funext fun a => hg x.2 a)
    · rfl

theorem size_foldl_modify {α β : Type} {items : List (Nat × β)} {f : β → α → α} (xs : Array α) :
    (items.foldl (fun xs x => xs.modify x.1 (f x.2)) xs).size = xs.size := by
  induction items generalizing xs with
  | nil => rfl
  | cons x items ih => rw [List.foldl_cons, ih, Array.size_modify]

/-! ## Changes of several entries -/

section Told

variable {α : Type} {xs : Array (Nat × α)}

/-- The objective coefficients at some positions were replaced. -/
structure CostsTold (xs : Array (Nat × α)) (value : α → Extended) (s t : Simplex) : Prop where
  rows : t.rows = s.rows
  nrColumns : t.nrColumns = s.nrColumns
  bounds : ∀ i, t.bounds? i = s.bounds? i
  others : ∀ {i}, (∀ x ∈ xs, x.1 ≠ i) → t.cost? i = s.cost? i
  told : ∀ {i a}, i < s.nrColumns → (i, a) ∈ xs → (∀ b, (i, b) ∈ xs → value b = value a) →
    t.cost? i = finiteEnd? (value a)

/-- The bounds at some positions were replaced. -/
structure BoundsTold (xs : Array (Nat × α)) (value : α → Bounds) (s t : Simplex) : Prop where
  rows : t.rows = s.rows
  nrColumns : t.nrColumns = s.nrColumns
  cost : ∀ i, t.cost? i = s.cost? i
  others : ∀ {i}, (∀ x ∈ xs, x.1 ≠ i) → t.bounds? i = s.bounds? i
  told : ∀ {i a}, i < s.nrColumns → (i, a) ∈ xs → (∀ b, (i, b) ∈ xs → value b = value a) →
    t.bounds? i = some (value a)

/-- The sides at some positions were replaced. -/
structure SidesTold (xs : Array (Nat × α)) (value : α → Bounds) (s t : Simplex) : Prop where
  columns : t.columns = s.columns
  nrRows : t.nrRows = s.nrRows
  coefficients : ∀ j : Nat, t.rows[j]?.map DenseRow.coefficients = s.rows[j]?.map DenseRow.coefficients
  others : ∀ {j}, (∀ x ∈ xs, x.1 ≠ j) → t.sides? j = s.sides? j
  told : ∀ {j a}, j < s.nrRows → (j, a) ∈ xs → (∀ b, (j, b) ∈ xs → value b = value a) →
    t.sides? j = some (value a)

/-- Nothing is told of no line. -/
theorem costsTold_empty (hxs : xs = #[]) (value : α → Extended) (s : Simplex) :
    CostsTold xs value s s := by
  subst hxs
  exact ⟨rfl, rfl, fun _ => rfl, fun _ => rfl, fun _ h => (Array.not_mem_empty _ h).elim⟩

theorem boundsTold_empty (hxs : xs = #[]) (value : α → Bounds) (s : Simplex) :
    BoundsTold xs value s s := by
  subst hxs
  exact ⟨rfl, rfl, fun _ => rfl, fun _ => rfl, fun _ h => (Array.not_mem_empty _ h).elim⟩

theorem sidesTold_empty (hxs : xs = #[]) (value : α → Bounds) (s : Simplex) :
    SidesTold xs value s s := by
  subst hxs
  exact ⟨rfl, rfl, fun _ => rfl, fun _ => rfl, fun _ h => (Array.not_mem_empty _ h).elim⟩

theorem toList_zip_map {β γ : Type} (xs : Array α) (f : α → β) (g : α → γ) :
    ((xs.map f).zip (xs.map g)).toList = xs.toList.map fun x => (f x, g x) := by
  rw [Array.toList_zip, Array.toList_map, Array.toList_map, List.zip_map']

theorem toList_zip_map_zip_map {β γ δ : Type} (xs : Array α) (f : α → β) (g : α → γ) (h : α → δ) :
    ((xs.map f).zip ((xs.map g).zip (xs.map h))).toList =
      xs.toList.map fun x => (f x, g x, h x) := by
  rw [Array.toList_zip, toList_zip_map, Array.toList_map, List.zip_map']

theorem ends_changeObjective_told (xs : Array (Nat × α)) (value : α → Extended) (s : Simplex) :
    Ends (changeObjective (xs.map (·.1)) (xs.map fun x => value x.2)) s
      (fun _ t => CostsTold xs value s t) fun e t => e.isRejection = true ∨ t = s := by
  refine (ends_changeObjective_held _ _ s).mono_ok ?_
  rintro _ t ⟨hall, rfl⟩
  rw [toList_zip_map] at hall ⊢
  rw [List.foldl_map]
  set f : α → DenseColumn → DenseColumn :=
    fun a => DenseColumn.withObjective ((finiteEnd? (value a)).getD 0)
  refine ⟨rfl, size_foldl_modify (f := f) _, fun i => ?_, fun {i} hothers => ?_,
    fun {i a} hi ha hagree => ?_⟩
  · exact map_foldl_modify (f := f) (g := DenseColumn.bounds) (fun _ _ => rfl) _
  · exact congrArg (Option.map DenseColumn.objective) (getElem?_foldl_modify_of_ne (f := f)
      (fun x hx => hothers x (Array.mem_toList_iff.mp hx)) _)
  · have hmem := Array.mem_toList_iff.mpr ha
    obtain ⟨q, hq⟩ := Option.isSome_iff_exists.mp (hall _ (List.mem_map_of_mem hmem))
    have hget := getElem?_foldl_modify (f := f) (g := f a) (i := i) (fun x hx hxi => by
      rw [show f x.2 = f a from congrArg (fun v => DenseColumn.withObjective ((finiteEnd? v).getD 0))
        (hagree x.2 (hxi ▸ Array.mem_toList_iff.mp hx))]) (fun _ => rfl) ⟨_, hmem, rfl⟩ s.columns
    rw [Array.getElem?_eq_getElem (show i < s.columns.size from hi)] at hget
    refine (congrArg (Option.map DenseColumn.objective) hget).trans ?_
    rw [hq]
    exact congrArg (fun x => some (x.getD 0)) hq

theorem ends_changeBounds_told (xs : Array (Nat × α)) (lower upper : α → Extended)
    (h : ∀ x ∈ xs, x.1 < s.nrColumns) :
    Ends (changeBounds (xs.map (·.1)) (xs.map fun x => lower x.2) (xs.map fun x => upper x.2)) s
      (fun _ t => BoundsTold xs (fun a => toBounds (lower a) (upper a)) s t) fun _ _ => False := by
  refine (ends_changeBounds_held (by simp) (by simp) (by simpa using h)).mono_ok ?_
  rintro _ t rfl
  rw [toList_zip_map_zip_map, List.foldl_map]
  set f : α → DenseColumn → DenseColumn :=
    fun a => DenseColumn.withBounds (toBounds (lower a) (upper a))
  refine ⟨rfl, size_foldl_modify (f := f) _, fun i => ?_, fun {i} hothers => ?_,
    fun {i a} hi ha hagree => ?_⟩
  · exact map_foldl_modify (f := f) (g := DenseColumn.objective) (fun _ _ => rfl) _
  · exact congrArg (Option.map DenseColumn.bounds) (getElem?_foldl_modify_of_ne (f := f)
      (fun x hx => hothers x (Array.mem_toList_iff.mp hx)) _)
  · have hget := getElem?_foldl_modify (f := f) (g := f a) (i := i) (fun x hx hxi => by
      rw [show f x.2 = f a from congrArg DenseColumn.withBounds
        (hagree x.2 (hxi ▸ Array.mem_toList_iff.mp hx))]) (fun _ => rfl)
      ⟨_, Array.mem_toList_iff.mpr ha, rfl⟩ s.columns
    rw [Array.getElem?_eq_getElem (show i < s.columns.size from hi)] at hget
    exact congrArg (Option.map DenseColumn.bounds) hget

theorem ends_changeSides_told (xs : Array (Nat × α)) (lhs rhs : α → Extended) (s : Simplex) :
    Ends (changeSides (xs.map (·.1)) (xs.map fun x => lhs x.2) (xs.map fun x => rhs x.2)) s
      (fun _ t => SidesTold xs (fun a => toBounds (lhs a) (rhs a)) s t) fun _ t => t = s := by
  refine (ends_changeSides_held _ _ _ s).mono_ok ?_
  rintro _ t rfl
  rw [toList_zip_map_zip_map, List.foldl_map]
  set f : α → DenseRow → DenseRow := fun a => DenseRow.withSides (toBounds (lhs a) (rhs a))
  refine ⟨rfl, size_foldl_modify (f := f) _, fun j => ?_, fun {j} hothers => ?_,
    fun {j a} hj ha hagree => ?_⟩
  · exact map_foldl_modify (f := f) (g := DenseRow.coefficients) (fun _ _ => rfl) _
  · exact congrArg (Option.map DenseRow.sides) (getElem?_foldl_modify_of_ne (f := f)
      (fun x hx => hothers x (Array.mem_toList_iff.mp hx)) _)
  · have hget := getElem?_foldl_modify (f := f) (g := f a) (i := j) (fun x hx hxj => by
      rw [show f x.2 = f a from congrArg DenseRow.withSides
        (hagree x.2 (hxj ▸ Array.mem_toList_iff.mp hx))]) (fun _ => rfl)
      ⟨_, Array.mem_toList_iff.mpr ha, rfl⟩ s.rows
    rw [Array.getElem?_eq_getElem (show j < s.rows.size from hj)] at hget
    exact congrArg (Option.map DenseRow.sides) hget

end Told

/-! ## Values as they are handed over -/

/-- Our infinity and that of the solver count as the same. -/
theorem finiteEnd?_encode (s : Simplex) (x : Extended) :
    finiteEnd? (Solver.encode s x) = finiteEnd? x := by
  have hpos : finiteEnd? (.finite infinity) = none := by
    rw [finiteEnd?, if_neg (by simp)]
  have hneg : finiteEnd? (-.finite infinity) = none := by
    rw [Extended.neg_finite, finiteEnd?, if_neg (by simp)]
  cases x with
  | finite q => rfl
  | negInf => exact hneg
  | posInf => exact hpos

theorem toBounds_encode (s t : Simplex) (lower upper : Extended) :
    toBounds (Solver.encode s lower) (Solver.encode t upper) = toBounds lower upper := by
  rw [toBounds, toBounds, finiteEnd?_encode, finiteEnd?_encode]

end Simplex

end CertifiedLp
