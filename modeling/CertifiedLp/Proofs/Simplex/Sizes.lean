import Mathlib
import CertifiedLp.Proofs.Simplex.Program
import CertifiedLp.Proofs.Solver.Sizes

/-!
# The size of the simplex solver

Calls of the simplex solver that succeed add and delete what they are meant to. A call that fails
may have added some of the columns or rows.
-/

namespace CertifiedLp

namespace Simplex

open Solver (SameSize Resizes Sized)

variable {s t : Simplex} {x : SolverM Simplex Unit}

/-- A failing call may leave any state. -/
abbrev Anything (_ _ : Simplex) : Prop := True

theorem resizes_of_along (h : Along SameSize x) (s : Simplex) :
    Resizes Anything x s (Solver.nrColumns s) (Solver.nrRows s) :=
  (h s).mono (fun _ _ ht => ⟨ht.nrColumns, ht.nrRows⟩) fun _ _ _ => trivial

/-! ## Calls that change values -/

/-- What a line says may change, and a result may be forgotten, without breaking a relation. -/
structure AdmitsValues (R : Simplex → Simplex → Prop) : Prop where
  column (s : Simplex) (j : Nat) (f : DenseColumn → DenseColumn) :
    R s { s with columns := s.columns.modify j f }
  row (s : Simplex) (i : Nat) (f : DenseRow → DenseRow) : R s { s with rows := s.rows.modify i f }
  result (s : Simplex) : R s { s with result := none }

section Values

variable {R : Simplex → Simplex → Prop}

namespace AdmitsValues

theorem modifyColumn (h : AdmitsValues R) (j : Nat) (f : DenseColumn → DenseColumn) :
    Along R (modify fun s => { s with columns := s.columns.modify j f } :
      SolverM Simplex PUnit) := .modify fun s => h.column s j f

theorem modifyRow (h : AdmitsValues R) (i : Nat) (f : DenseRow → DenseRow) :
    Along R (modify fun s => { s with rows := s.rows.modify i f } : SolverM Simplex PUnit) :=
  .modify fun s => h.row s i f

theorem forgetResult (h : AdmitsValues R) : Along R forgetResult := .modify h.result

end AdmitsValues

variable [IsPreorder Simplex R]

theorem along_checkIndices (kind : LineKind) (indices : Array Nat) (count : Nat)
    (sizes : List Nat) : Along R (checkIndices kind indices count sizes) := by
  refine .ite ?_ .throw_bind
  split
  · exact .throw
  · exact .pure

theorem along_checkRange (kind : LineKind) (first last count : Nat) :
    Along R (checkRange kind first last count) := .ite .throw .pure

namespace AdmitsValues

variable (h : AdmitsValues R)

include h

theorem changeObjective (indices : Array Nat) (values : Array Extended) :
    Along R (changeObjective indices values) := by
  refine .get fun _ => .bind (along_checkIndices _ _ _ _) fun _ => ?_
  refine .bind (.forIn (fun _ _ => ?_) _) fun _ => h.forgetResult
  exact .bind .liftM fun _ => .bind (h.modifyColumn _ _) fun _ => .pure

theorem changeBounds (indices : Array Nat) (lower upper : Array Extended) :
    Along R (changeBounds indices lower upper) := by
  refine .get fun _ => .bind (along_checkIndices _ _ _ _) fun _ => ?_
  refine .bind (.forIn (fun _ _ => ?_) _) fun _ => h.forgetResult
  exact .bind (h.modifyColumn _ _) fun _ => .pure

theorem changeSides (indices : Array Nat) (lhs rhs : Array Extended) :
    Along R (changeSides indices lhs rhs) := by
  refine .get fun _ => .bind (along_checkIndices _ _ _ _) fun _ => ?_
  refine .bind (.forIn (fun _ _ => ?_) _) fun _ => h.forgetResult
  exact .bind (h.modifyRow _ _) fun _ => .pure

end AdmitsValues

end Values

theorem admitsValues_sameSize : AdmitsValues SameSize where
  column _ _ _ := ⟨Array.size_modify, rfl⟩
  row _ _ _ := ⟨rfl, Array.size_modify⟩
  result _ := ⟨rfl, rfl⟩

/-! ## Calls that set a basis or a parameter -/

theorem sameSize_withBasis (s : Simplex) (b : Basis) : SameSize s (s.withBasis b) :=
  ⟨Array.size_mapIdx, Array.size_mapIdx⟩

theorem along_setBasis (b : Basis) : Along SameSize (setBasis b) := fun s => by
  rw [setBasis, Ends.bind_iff, Ends.get_iff, Ends.ite_iff]
  exact ⟨fun _ => sameSize_withBasis s b, fun _ => refl s⟩

theorem along_configure (f : Parameters → Parameters) : Along SameSize (configure f) :=
  .modify fun _ => ⟨rfl, rfl⟩

theorem along_setInt (parameter : IntParameter) (value : Int) :
    Along SameSize (setInt parameter value) := by
  rw [setInt.eq_def]
  split
  · exact along_configure _
  · exact .ite (along_configure _) (.ite .throw (along_configure _))
  · split
    · exact along_configure _
    · exact .throw
  · exact along_configure _

theorem along_setReal (parameter : RealParameter) (value : Extended) :
    Along SameSize (setReal parameter value) := by
  rw [setReal.eq_def]
  split <;> exact along_configure _

theorem nrRows_solve (s : Simplex) : s.solve.nrRows = s.nrRows := by
  simp [solve, withBasis, nrRows]

theorem along_solve : Along SameSize (modify solve : SolverM Simplex Unit) :=
  .modify fun s => ⟨nrColumns_solve s, nrRows_solve s⟩

/-! ## Calls that add something -/

@[simp] theorem nrColumns_pushColumn (objective : Rat) (bounds : Bounds) (xs : Array Rat)
    (s : Simplex) : (pushColumn objective bounds xs s).nrColumns = s.nrColumns + 1 :=
  Array.size_push _

@[simp] theorem nrRows_pushColumn (objective : Rat) (bounds : Bounds) (xs : Array Rat)
    (s : Simplex) : (pushColumn objective bounds xs s).nrRows = s.nrRows :=
  Array.size_mapIdx

@[simp] theorem nrRows_pushRow (sides : Bounds) (xs : Array Rat) (s : Simplex) :
    (pushRow sides xs s).nrRows = s.nrRows + 1 :=
  Array.size_push _

/-- A check keeps the state. -/
theorem ends_checkIndices (kind : LineKind) (indices : Array Nat) (count : Nat)
    (sizes : List Nat) (s : Simplex) :
    Ends (checkIndices kind indices count sizes) s (fun _ t => t = s) fun _ _ => True := by
  rw [checkIndices, Ends.ite_iff]
  refine ⟨fun _ => ?_, fun _ => trivial⟩
  split
  · trivial
  · rfl

/-- Nothing about an item that is converted depends on the solver. -/
theorem ends_liftM {α : Type} {y : Except SolverError α} {Q : α → Simplex → Prop}
    (h : ∀ a, Q a s) : Ends (liftM y : SolverM Simplex α) s Q fun _ _ => True := by
  cases y with
  | error e => trivial
  | ok a => exact h a

theorem resizes_addColumns (s : Simplex) (batch : ColumnBatch) :
    Resizes Anything (addColumns batch) s (s.nrColumns + batch.size) s.nrRows := by
  rw [Resizes, addColumns, Ends.bind_iff, Ends.get_iff, Ends.bind_iff]
  refine (ends_checkIndices _ _ _ _ s).mono_ok fun _ t ht => ?_
  subst ht
  rw [Ends.ite_iff]
  refine ⟨fun _ => ?_, fun _ => trivial⟩
  rw [Ends.bind_iff]
  refine (Ends.forIn_range (fun k u => u.nrColumns = t.nrColumns + k ∧ u.nrRows = t.nrRows)
    ⟨rfl, rfl⟩ fun k u _ hu => ?_).mono_ok fun _ u hu => by
      rw [forgetResult, Ends.modify_iff]; exact hu
  rw [Ends.bind_iff]
  refine ends_liftM fun objective => Ends.bind_iff.mpr (ends_liftM fun coefficients => ?_)
  rw [Ends.bind_iff, Ends.modify_iff, Ends.pure_iff, nrColumns_pushColumn, nrRows_pushColumn]
  exact ⟨rfl, by omega, hu.2⟩

theorem resizes_addRows (s : Simplex) (batch : RowBatch) :
    Resizes Anything (addRows batch) s s.nrColumns (s.nrRows + batch.size) := by
  rw [Resizes, addRows, Ends.bind_iff, Ends.get_iff, Ends.bind_iff]
  refine (ends_checkIndices _ _ _ _ s).mono_ok fun _ t ht => ?_
  subst ht
  rw [Ends.ite_iff]
  refine ⟨fun _ => ?_, fun _ => trivial⟩
  rw [Ends.bind_iff]
  refine (Ends.forIn_range (fun k u => u.nrColumns = t.nrColumns ∧ u.nrRows = t.nrRows + k)
    ⟨rfl, rfl⟩ fun k u _ hu => ?_).mono_ok fun _ u hu => by
      rw [forgetResult, Ends.modify_iff]; exact hu
  rw [Ends.bind_iff]
  refine ends_liftM fun coefficients => ?_
  rw [Ends.bind_iff, Ends.modify_iff, Ends.pure_iff, nrRows_pushRow]
  exact ⟨rfl, hu.1, by omega⟩

/-! ## Calls that delete something -/

theorem size_dropRange {α : Type} {xs : Array α} {first last : Nat} (h : first ≤ last)
    (hlast : last < xs.size) : (dropRange xs first last).size = xs.size - (last + 1 - first) := by
  rw [dropRange, Array.size_append, Array.size_extract, Array.size_extract]
  omega

theorem ends_checkRange (kind : LineKind) (first last count : Nat) (s : Simplex) :
    Ends (checkRange kind first last count) s (fun _ t => t = s) fun _ _ => True := by
  rw [checkRange, Ends.ite_iff]
  exact ⟨fun _ => trivial, fun _ => rfl⟩

theorem resizes_deleteColumns (s : Simplex) {first last : Nat} (h : first ≤ last)
    (hlast : last < s.nrColumns) :
    Resizes Anything (deleteColumns first last) s (s.nrColumns - (last + 1 - first)) s.nrRows := by
  rw [Resizes, deleteColumns, Ends.bind_iff, Ends.get_iff, Ends.bind_iff]
  refine (ends_checkRange _ _ _ _ s).mono_ok fun _ t ht => ?_
  subst ht
  exact ⟨size_dropRange h hlast, Array.size_map⟩

theorem resizes_deleteRows (s : Simplex) {first last : Nat} (h : first ≤ last)
    (hlast : last < s.nrRows) :
    Resizes Anything (deleteRows first last) s s.nrColumns (s.nrRows - (last + 1 - first)) := by
  rw [Resizes, deleteRows, Ends.bind_iff, Ends.get_iff, Ends.bind_iff]
  refine (ends_checkRange _ _ _ _ s).mono_ok fun _ t ht => ?_
  subst ht
  exact ⟨rfl, size_dropRange h hlast⟩

/-- The simplex solver counts its columns and rows as a solver should. -/
theorem sized : Sized Simplex Anything where
  addColumns := resizes_addColumns
  addRows := resizes_addRows
  deleteColumns := resizes_deleteColumns
  deleteRows := resizes_deleteRows
  changeObjective s columns values :=
    resizes_of_along (admitsValues_sameSize.changeObjective columns values) s
  changeBounds s columns lower upper :=
    resizes_of_along (admitsValues_sameSize.changeBounds columns lower upper) s
  changeSides s rows lhs rhs := resizes_of_along (admitsValues_sameSize.changeSides rows lhs rhs) s
  setBasis s basis := resizes_of_along (along_setBasis basis) s
  setInt s parameter value := resizes_of_along (along_setInt parameter value) s
  setReal s parameter value := resizes_of_along (along_setReal parameter value) s
  solvePrimal := resizes_of_along along_solve
  solveDual := resizes_of_along along_solve
  restore s snapshot := resizes_of_along (along_setBasis snapshot) s

/-- The simplex solver, brought back after calls that fail, does what it is told completely or not
at all. -/
theorem allOrNothing_atomic : Solver.AllOrNothing (Atomic Simplex) := Atomic.allOrNothing sized

end Simplex

end CertifiedLp
