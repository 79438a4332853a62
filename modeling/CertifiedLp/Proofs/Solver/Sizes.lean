import Mathlib
import CertifiedLp.Proofs.Along
import CertifiedLp.Solver.Scripted

/-!
# The size of a solver

How many columns and rows a solver has after a call. Solvers differ in what a failing call leaves
behind. One that fails without effect is the better partner, and every solver can be made into one.
-/

namespace CertifiedLp

namespace Solver

variable {σ : Type} [Solver σ]

/-- Two states of a solver have as many columns and rows. -/
structure SameSize (s t : σ) : Prop where
  nrColumns : nrColumns t = nrColumns s
  nrRows : nrRows t = nrRows s

instance : IsPreorder σ SameSize where
  refl _ := ⟨rfl, rfl⟩
  trans _ _ _ h h' := ⟨h'.1.trans h.1, h'.2.trans h.2⟩

/-- A call that succeeds leaves given numbers of columns and rows, and one that fails leaves a state
that is related in a given way to the one before. -/
def Resizes (failed : σ → σ → Prop) (x : SolverM σ Unit) (s : σ) (columns rows : Nat) : Prop :=
  Ends x s (fun _ t => nrColumns t = columns ∧ nrRows t = rows) fun _ t => failed s t

/-- Every call that succeeds adds or deletes all columns and rows that it is meant to. -/
structure Sized (σ : Type) [Solver σ] (failed : σ → σ → Prop) : Prop where
  addColumns (s : σ) (batch : ColumnBatch) :
    Resizes failed (Solver.addColumns batch) s (nrColumns s + batch.size) (nrRows s)
  addRows (s : σ) (batch : RowBatch) :
    Resizes failed (Solver.addRows batch) s (nrColumns s) (nrRows s + batch.size)
  deleteColumns (s : σ) {first last : Nat} (h : first ≤ last) (hlast : last < nrColumns s) :
    Resizes failed (Solver.deleteColumns first last) s (nrColumns s - (last + 1 - first)) (nrRows s)
  deleteRows (s : σ) {first last : Nat} (h : first ≤ last) (hlast : last < nrRows s) :
    Resizes failed (Solver.deleteRows first last) s (nrColumns s) (nrRows s - (last + 1 - first))
  changeObjective (s : σ) (columns : Array Nat) (values : Array Extended) :
    Resizes failed (Solver.changeObjective columns values) s (nrColumns s) (nrRows s)
  changeBounds (s : σ) (columns : Array Nat) (lower upper : Array Extended) :
    Resizes failed (Solver.changeBounds columns lower upper) s (nrColumns s) (nrRows s)
  changeSides (s : σ) (rows : Array Nat) (lhs rhs : Array Extended) :
    Resizes failed (Solver.changeSides rows lhs rhs) s (nrColumns s) (nrRows s)
  setBasis (s : σ) (basis : Basis) :
    Resizes failed (Solver.setBasis basis) s (nrColumns s) (nrRows s)
  setInt (s : σ) (parameter : IntParameter) (value : Int) :
    Resizes failed (Solver.setInt parameter value) s (nrColumns s) (nrRows s)
  setReal (s : σ) (parameter : RealParameter) (value : Extended) :
    Resizes failed (Solver.setReal parameter value) s (nrColumns s) (nrRows s)
  solvePrimal (s : σ) : Resizes failed Solver.solvePrimal s (nrColumns s) (nrRows s)
  solveDual (s : σ) : Resizes failed Solver.solveDual s (nrColumns s) (nrRows s)
  restore (s : σ) (snapshot : Snapshot σ) :
    Resizes failed (Solver.restore snapshot) s (nrColumns s) (nrRows s)

/-- Every call adds or deletes all columns and rows that it is meant to, or fails without such an
effect. -/
def AllOrNothing (σ : Type) [Solver σ] : Prop := Sized σ SameSize

/-- A call that is not meant to add or delete anything. -/
theorem along_of_resizes {x : SolverM σ Unit}
    (h : ∀ s, Resizes SameSize x s (nrColumns s) (nrRows s)) : Along SameSize x := fun s =>
  (h s).mono (fun _ _ hs => ⟨hs.1, hs.2⟩) fun _ _ hs => hs

end Solver

/-! ## Failing without effect -/

/-- A solver that is brought back after a call that failed. -/
structure Atomic (σ : Type) where
  /-- The inner solver. -/
  inner : σ

namespace Atomic

variable {σ : Type} [Solver σ]

/-- Keep what a call did only if it succeeds. -/
def atomically (x : SolverM σ Unit) : SolverM (Atomic σ) Unit := ExceptT.mk fun s =>
  match x.run.run s.inner with
  | (.ok a, inner) => (.ok a, ⟨inner⟩)
  | (.error e, _) => (.error e, s)

instance : Solver (Atomic σ) where
  Snapshot := Solver.Snapshot σ
  addColumns batch := atomically (Solver.addColumns batch)
  addRows batch := atomically (Solver.addRows batch)
  deleteColumns first last := atomically (Solver.deleteColumns first last)
  deleteRows first last := atomically (Solver.deleteRows first last)
  changeObjective columns values := atomically (Solver.changeObjective columns values)
  changeBounds columns lower upper := atomically (Solver.changeBounds columns lower upper)
  changeSides rows lhs rhs := atomically (Solver.changeSides rows lhs rhs)
  setBasis basis := atomically (Solver.setBasis basis)
  basis s := Solver.basis s.inner
  intParameter s parameter := Solver.intParameter s.inner parameter
  setInt parameter value := atomically (Solver.setInt parameter value)
  setReal parameter value := atomically (Solver.setReal parameter value)
  solvePrimal := atomically Solver.solvePrimal
  solveDual := atomically Solver.solveDual
  reports s answer := Solver.reports s.inner answer
  objectiveValue s := Solver.objectiveValue s.inner
  solution s := Solver.solution s.inner
  farkas s := Solver.farkas s.inner
  snapshot s := Solver.snapshot s.inner
  restore snapshot := atomically (Solver.restore snapshot)
  infinity s := Solver.infinity s.inner
  nrColumns s := Solver.nrColumns s.inner
  nrRows s := Solver.nrRows s.inner

omit [Solver σ] in
/-- A call that succeeds does what it does to the inner solver, and one that fails does nothing. -/
theorem ends_atomically {x : SolverM σ Unit} {s : Atomic σ} {Q : Unit → Atomic σ → Prop}
    {E : SolverError → Atomic σ → Prop} :
    Ends (atomically x) s Q E ↔
      Ends x s.inner (fun a inner => Q a ⟨inner⟩) fun e _ => E e s := by
  unfold Ends
  cases hrun : x.run.run s.inner with
  | mk result inner =>
    cases result <;> simp only [atomically, ExceptT.run_mk, StateT.run] at hrun ⊢ <;> rw [hrun]

theorem resizes_atomically {failed : σ → σ → Prop} {x : SolverM σ Unit} {s : Atomic σ}
    {columns rows : Nat} (h : Solver.Resizes failed x s.inner columns rows) :
    Solver.Resizes Solver.SameSize (atomically x) s columns rows :=
  ends_atomically.mpr (h.mono (fun _ _ ht => ht) fun _ _ _ => refl s)

/-- Whatever failing calls of a solver leave behind, this makes them fail without effect. -/
theorem allOrNothing {failed : σ → σ → Prop} (h : Solver.Sized σ failed) :
    Solver.AllOrNothing (Atomic σ) where
  addColumns s batch := resizes_atomically (h.addColumns s.inner batch)
  addRows s batch := resizes_atomically (h.addRows s.inner batch)
  deleteColumns s _ _ hle hlast := resizes_atomically (h.deleteColumns s.inner hle hlast)
  deleteRows s _ _ hle hlast := resizes_atomically (h.deleteRows s.inner hle hlast)
  changeObjective s columns values := resizes_atomically (h.changeObjective s.inner columns values)
  changeBounds s columns lower upper :=
    resizes_atomically (h.changeBounds s.inner columns lower upper)
  changeSides s rows lhs rhs := resizes_atomically (h.changeSides s.inner rows lhs rhs)
  setBasis s basis := resizes_atomically (h.setBasis s.inner basis)
  setInt s parameter value := resizes_atomically (h.setInt s.inner parameter value)
  setReal s parameter value := resizes_atomically (h.setReal s.inner parameter value)
  solvePrimal s := resizes_atomically (h.solvePrimal s.inner)
  solveDual s := resizes_atomically (h.solveDual s.inner)
  restore s snapshot := resizes_atomically (h.restore s.inner snapshot)

end Atomic

/-! ## Failing as a script says -/

namespace Scripted

open Solver (AllOrNothing Resizes SameSize)

variable {σ : Type} [Solver σ] {x : SolverM σ Unit} {s : Scripted σ} {columns rows : Nat}

/-- What does not concern the inner solver. -/
theorem sameSize_of_inner {t : Scripted σ} (h : t.inner = s.inner) : SameSize s t :=
  ⟨congrArg (fun inner : σ => Solver.nrColumns inner) h,
    congrArg (fun inner : σ => Solver.nrRows inner) h⟩

omit [Solver σ] in
/-- What is left to the inner solver ends as it ends there. -/
theorem ends_delegate {Q : Unit → Scripted σ → Prop} {E : SolverError → Scripted σ → Prop} :
    Ends (delegate x) s Q E ↔
      Ends x s.inner (fun a inner => Q a { s with inner }) fun e inner => E e { s with inner } := by
  unfold Ends
  rw [show (delegate x).run.run s = ((x.run.run s.inner).1,
    { s with inner := (x.run.run s.inner).2 }) from rfl]
  rcases x.run.run s.inner with ⟨_ | _, _⟩ <;> rfl

theorem resizes_delegate {t : Scripted σ} (h : Resizes SameSize x s.inner columns rows)
    (ht : t.inner = s.inner) :
    Ends (delegate x) t (fun _ u => Solver.nrColumns u = columns ∧ Solver.nrRows u = rows)
      fun _ u => SameSize s u := by
  rw [ends_delegate, ht]
  exact h.mono (fun _ _ hu => hu) fun _ _ hu => ⟨hu.nrColumns, hu.nrRows⟩

theorem resizes_perform (call : Call) (h : Resizes SameSize x s.inner columns rows) :
    Resizes SameSize (perform call x) s columns rows := by
  rw [Resizes, perform, Ends.bind_iff, Ends.modify_iff, Ends.bind_iff, Ends.get_iff, Ends.ite_iff]
  refine ⟨fun _ => sameSize_of_inner rfl, fun _ => ?_⟩
  rw [Ends.ite_iff]
  exact ⟨fun _ => Ends.bind_iff.mpr (resizes_delegate h rfl), fun _ => resizes_delegate h rfl⟩

theorem resizes_solveScripted (call : Call) (h : Resizes SameSize x s.inner columns rows) :
    Resizes SameSize (solveScripted call x) s columns rows := by
  rw [Resizes, solveScripted, Ends.bind_iff, Ends.modify_iff, Ends.bind_iff]
  have hnext (t : Scripted σ) : Ends nextDirection t (fun _ u => u.inner = t.inner)
      fun _ u => u.inner = t.inner := by
    rw [nextDirection, Ends.bind_iff, Ends.get_iff]
    split <;> rfl
  refine (hnext _).mono (fun direction t ht => ?_) fun _ t ht => sameSize_of_inner ht
  cases direction with
  | solve => exact resizes_delegate h ht
  | fail => exact sameSize_of_inner ht
  | report status =>
    exact Ends.bind_iff.mpr ((resizes_delegate h ht).mono_ok fun _ u hu => hu)

/-- A script may let any call fail. -/
theorem allOrNothing (h : AllOrNothing σ) : AllOrNothing (Scripted σ) where
  addColumns s batch := resizes_perform _ (h.addColumns s.inner batch)
  addRows s batch := resizes_perform _ (h.addRows s.inner batch)
  deleteColumns s _ _ hle hlast := resizes_perform _ (h.deleteColumns s.inner hle hlast)
  deleteRows s _ _ hle hlast := resizes_perform _ (h.deleteRows s.inner hle hlast)
  changeObjective s columns values :=
    resizes_perform _ (h.changeObjective s.inner columns values)
  changeBounds s columns lower upper :=
    resizes_perform _ (h.changeBounds s.inner columns lower upper)
  changeSides s rows lhs rhs := resizes_perform _ (h.changeSides s.inner rows lhs rhs)
  setBasis s basis := resizes_perform _ (h.setBasis s.inner basis)
  setInt s parameter value := resizes_perform _ (h.setInt s.inner parameter value)
  setReal s parameter value := resizes_perform _ (h.setReal s.inner parameter value)
  solvePrimal s := resizes_solveScripted _ (h.solvePrimal s.inner)
  solveDual s := resizes_solveScripted _ (h.solveDual s.inner)
  restore s snapshot := resizes_perform _ (h.restore s.inner snapshot)

end Scripted

end CertifiedLp
