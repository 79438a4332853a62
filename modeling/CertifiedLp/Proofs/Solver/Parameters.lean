import Mathlib
import CertifiedLp.Proofs.Simplex.Sizes

/-!
# The parameters of a solver

A solver may answer whatever it likes, and still be relied on to store its parameters: it accepts the
values that they are given, keeps them through every other call, and tells them when it is asked.
-/

namespace CertifiedLp

/-- The values of all parameters of a solver. -/
@[ext] structure ParameterValues where
  /-- The values of the integer parameters. -/
  int : IntParameter → Int
  /-- The values of the other parameters. -/
  real : RealParameter → Extended

namespace ParameterValues

/-- Replace the value of an integer parameter. -/
def setInt (v : ParameterValues) (parameter : IntParameter) (value : Int) : ParameterValues :=
  { v with int := Function.update v.int parameter value }

/-- Replace the value of another parameter. -/
def setReal (v : ParameterValues) (parameter : RealParameter) (value : Extended) :
    ParameterValues :=
  { v with real := Function.update v.real parameter value }

variable (v : ParameterValues) (p p' : IntParameter) (q q' : RealParameter)

@[simp] theorem int_setInt (x : Int) : (v.setInt p x).int p' = if p' = p then x else v.int p' :=
  Function.update_apply ..

@[simp] theorem real_setReal (y : Extended) :
    (v.setReal q y).real q' = if q' = q then y else v.real q' := Function.update_apply ..

@[simp] theorem real_setInt (x : Int) : (v.setInt p x).real = v.real := rfl

@[simp] theorem int_setReal (y : Extended) : (v.setReal q y).int = v.int := rfl

end ParameterValues

/-- The values that an integer parameter can be given. -/
def IntParameter.Admits : IntParameter → Int → Prop
  | .fromScratch, value => value = 0 ∨ value = 1
  | .iterationLimit, value => 0 ≤ value ∧ value ≤ noLimit
  | .pricing, value => ∃ pricing : Pricing, pricing.code = value
  | .scaling, value => value = 0 ∨ value = 1

theorem admits_fromScratch (p : Prop) [Decidable p] :
    IntParameter.fromScratch.Admits (if p then 1 else 0) := by
  split
  · exact Or.inr rfl
  · exact Or.inl rfl

theorem admits_scaling (p : Prop) [Decidable p] :
    IntParameter.scaling.Admits (if p then 1 else 0) := admits_fromScratch p

theorem admits_pricing (pricing : Pricing) : IntParameter.pricing.Admits pricing.code :=
  ⟨pricing, rfl⟩

theorem admits_iterationLimitCode (limit : Option Nat) :
    IntParameter.iterationLimit.Admits (iterationLimitCode limit) := by
  cases limit with
  | none => exact ⟨by decide, le_refl _⟩
  | some n => exact ⟨le_min (Int.natCast_nonneg n) (by decide), min_le_right _ _⟩

namespace Solver

/-- The parameters stay the same in the states in which a solver can be configured, and it does not
leave these states. -/
def KeepsParameters {σ : Type} (Usable : σ → Prop) (values : σ → ParameterValues) (s t : σ) : Prop :=
  Usable s → Usable t ∧ values t = values s

instance {σ : Type} (Usable : σ → Prop) (values : σ → ParameterValues) :
    IsPreorder σ (KeepsParameters Usable values) where
  refl _ h := ⟨h, rfl⟩
  trans _ _ _ h h' hs := ⟨(h' (h hs).1).1, (h' (h hs).1).2.trans (h hs).2⟩

/-- A solver stores its parameters, whatever its other calls do. -/
structure ParameterStore (σ : Type) [Solver σ] where
  /-- The states in which parameters can be set and read. -/
  Usable : σ → Prop
  /-- The values that are stored. -/
  values : σ → ParameterValues
  intParameter {s : σ} (h : Usable s) (parameter : IntParameter) :
    Solver.intParameter s parameter = .ok ((values s).int parameter)
  setInt {s : σ} (h : Usable s) {parameter : IntParameter} {value : Int}
    (hvalue : parameter.Admits value) :
    Ends (Solver.setInt parameter value) s
      (fun _ t => Usable t ∧ values t = (values s).setInt parameter value) fun _ _ => False
  setReal {s : σ} (h : Usable s) (parameter : RealParameter) (value : Extended) :
    Ends (Solver.setReal parameter value) s
      (fun _ t => Usable t ∧ values t = (values s).setReal parameter value) fun _ _ => False
  addColumns (batch : ColumnBatch) :
    Along (KeepsParameters Usable values) (Solver.addColumns batch)
  addRows (batch : RowBatch) : Along (KeepsParameters Usable values) (Solver.addRows batch)
  deleteColumns (first last : Nat) :
    Along (KeepsParameters Usable values) (Solver.deleteColumns first last)
  deleteRows (first last : Nat) :
    Along (KeepsParameters Usable values) (Solver.deleteRows first last)
  changeObjective (columns : Array Nat) (objective : Array Extended) :
    Along (KeepsParameters Usable values) (Solver.changeObjective columns objective)
  changeBounds (columns : Array Nat) (lower upper : Array Extended) :
    Along (KeepsParameters Usable values) (Solver.changeBounds columns lower upper)
  changeSides (rows : Array Nat) (lhs rhs : Array Extended) :
    Along (KeepsParameters Usable values) (Solver.changeSides rows lhs rhs)
  setBasis (basis : Basis) : Along (KeepsParameters Usable values) (Solver.setBasis basis)
  solvePrimal : Along (KeepsParameters Usable values) Solver.solvePrimal
  solveDual : Along (KeepsParameters Usable values) Solver.solveDual
  restore (snapshot : Solver.Snapshot σ) :
    Along (KeepsParameters Usable values) (Solver.restore snapshot)

/-- The parameters stay the same. -/
abbrev ParameterStore.Keeps {σ : Type} [Solver σ] (P : ParameterStore σ) (s t : σ) : Prop :=
  KeepsParameters P.Usable P.values s t

end Solver

/-! ## The simplex solver -/

namespace Simplex

/-- Two states of the solver have the same configuration. -/
def SameParameters (s t : Simplex) : Prop := t.parameters = s.parameters

instance : IsPreorder Simplex SameParameters where
  refl _ := rfl
  trans _ _ _ h h' := Eq.trans h' h

theorem sameParameters_modify {f : Simplex → Simplex} (h : ∀ s, (f s).parameters = s.parameters) :
    Along SameParameters (modify f : SolverM Simplex PUnit) := .modify h

theorem admitsValues_sameParameters : AdmitsValues SameParameters where
  column _ _ _ := rfl
  row _ _ _ := rfl
  result _ := rfl

theorem sameParameters_forgetResult : Along SameParameters forgetResult :=
  admitsValues_sameParameters.forgetResult

theorem sameParameters_addColumns (batch : ColumnBatch) :
    Along SameParameters (addColumns batch) := by
  refine .get fun _ => .bind (along_checkIndices _ _ _ _) fun _ => .ite ?_ .throw_bind
  refine .bind (.forIn (fun _ _ => ?_) _) fun _ => sameParameters_forgetResult
  refine .bind .liftM fun _ => .bind .liftM fun _ => ?_
  exact .bind (sameParameters_modify fun _ => rfl) fun _ => .pure

theorem sameParameters_addRows (batch : RowBatch) : Along SameParameters (addRows batch) := by
  refine .get fun _ => .bind (along_checkIndices _ _ _ _) fun _ => .ite ?_ .throw_bind
  refine .bind (.forIn (fun _ _ => ?_) _) fun _ => sameParameters_forgetResult
  exact .bind .liftM fun _ => .bind (sameParameters_modify fun _ => rfl) fun _ => .pure

theorem sameParameters_deleteColumns (first last : Nat) :
    Along SameParameters (deleteColumns first last) := by
  refine .get fun _ => .bind (along_checkRange _ _ _ _) fun _ => ?_
  exact .bind (sameParameters_modify fun _ => rfl) fun _ => sameParameters_forgetResult

theorem sameParameters_deleteRows (first last : Nat) :
    Along SameParameters (deleteRows first last) := by
  refine .get fun _ => .bind (along_checkRange _ _ _ _) fun _ => ?_
  exact .bind (sameParameters_modify fun _ => rfl) fun _ => sameParameters_forgetResult

theorem sameParameters_setBasis (b : Basis) : Along SameParameters (setBasis b) := fun s => by
  rw [setBasis, Ends.bind_iff, Ends.get_iff, Ends.ite_iff]
  exact ⟨fun _ => rfl, fun _ => rfl⟩

theorem sameParameters_solve : Along SameParameters (modify solve : SolverM Simplex Unit) :=
  sameParameters_modify fun _ => rfl

/-- The values of all parameters. -/
def parameterValues (s : Simplex) : ParameterValues := ⟨s.intParameter, s.realParameter⟩

/-- The values are given ones if each of them is. -/
theorem parameterValues_eq {s : Simplex} {v : ParameterValues}
    (hint : ∀ p, s.intParameter p = v.int p) (hreal : ∀ p, s.realParameter p = v.real p) :
    s.parameterValues = v := ParameterValues.ext (funext hint) (funext hreal)

/-- The configuration has everything that is told about the parameters. -/
theorem parameterValues_congr {s t : Simplex} (h : t.parameters = s.parameters) :
    t.parameterValues = s.parameterValues :=
  parameterValues_eq (fun p => by cases p <;> simp only [parameterValues, intParameter, h])
    fun p => by cases p <;> simp only [parameterValues, realParameter, h]

theorem ends_setInt (s : Simplex) {parameter : IntParameter} {value : Int}
    (h : parameter.Admits value) :
    Ends (setInt parameter value) s
      (fun _ t => t.parameterValues = s.parameterValues.setInt parameter value)
      fun _ _ => False := by
  cases parameter with
  | fromScratch =>
    obtain rfl | rfl := h <;>
      exact parameterValues_eq (fun p => by cases p <;> rfl) fun p => by cases p <;> rfl
  | iterationLimit =>
    obtain ⟨hlower, hupper⟩ := h
    rw [setInt, Ends.ite_iff, Ends.ite_iff]
    refine ⟨fun hnone => ?_, fun _ => ⟨fun hneg => by omega, fun _ => ?_⟩⟩
    · subst hnone
      exact parameterValues_eq (fun p => by cases p <;> rfl) fun p => by cases p <;> rfl
    · have hcode : iterationLimitCode (some value.toNat) = value := by
        rw [iterationLimitCode]
        omega
      refine parameterValues_eq (fun p => ?_) fun p => by cases p <;> rfl
      cases p with
      | iterationLimit => exact hcode
      | _ => rfl
  | pricing =>
    obtain ⟨pricing, rfl⟩ := h
    rw [setInt, Pricing.ofCode?_code]
    exact parameterValues_eq (fun p => by cases p <;> rfl) fun p => by cases p <;> rfl
  | scaling =>
    obtain rfl | rfl := h <;>
      exact parameterValues_eq (fun p => by cases p <;> rfl) fun p => by cases p <;> rfl

theorem ends_setReal (s : Simplex) (parameter : RealParameter) (value : Extended) :
    Ends (setReal parameter value) s
      (fun _ t => t.parameterValues = s.parameterValues.setReal parameter value)
      fun _ _ => False := by
  cases parameter with
  | timeLimit => exact parameterValues_eq (fun _ => rfl) fun p => by cases p <;> rfl
  | objectiveLimit => exact parameterValues_eq (fun _ => rfl) fun p => by cases p <;> rfl

theorem keepsParameters_of_along {x : SolverM Simplex Unit} (h : Along SameParameters x) :
    Along (Solver.KeepsParameters (fun _ => True) parameterValues) x :=
  h.mono fun _ _ h _ => ⟨trivial, parameterValues_congr h⟩

/-- The simplex solver stores its parameters. -/
def parameterStore : Solver.ParameterStore Simplex where
  Usable _ := True
  values := parameterValues
  intParameter _ _ := rfl
  setInt _ _ _ h := (ends_setInt _ h).mono_ok fun _ _ h => ⟨trivial, h⟩
  setReal _ _ _ := (ends_setReal _ _ _).mono_ok fun _ _ h => ⟨trivial, h⟩
  addColumns _ := keepsParameters_of_along (sameParameters_addColumns _)
  addRows _ := keepsParameters_of_along (sameParameters_addRows _)
  deleteColumns _ _ := keepsParameters_of_along (sameParameters_deleteColumns _ _)
  deleteRows _ _ := keepsParameters_of_along (sameParameters_deleteRows _ _)
  changeObjective _ _ := keepsParameters_of_along (admitsValues_sameParameters.changeObjective _ _)
  changeBounds _ _ _ := keepsParameters_of_along (admitsValues_sameParameters.changeBounds _ _ _)
  changeSides _ _ _ := keepsParameters_of_along (admitsValues_sameParameters.changeSides _ _ _)
  setBasis _ := keepsParameters_of_along (sameParameters_setBasis _)
  solvePrimal := keepsParameters_of_along sameParameters_solve
  solveDual := keepsParameters_of_along sameParameters_solve
  restore _ := keepsParameters_of_along (sameParameters_setBasis _)

end Simplex

/-! ## Scripted solvers -/

namespace Scripted

open Solver (KeepsParameters ParameterStore)

variable {σ : Type} [Solver σ] {P : ParameterStore σ} {s : Scripted σ} {x : SolverM σ Unit}

/-- The script lets no call fail that sets or reads a parameter. -/
structure Configurable (s : Scripted σ) : Prop where
  setInt : ∀ parameter, Operation.setInt parameter ∉ s.failing
  setReal : ∀ parameter, Operation.setReal parameter ∉ s.failing
  intParameter : ∀ parameter, Operation.intParameter parameter ∉ s.failing

omit [Solver σ] in
theorem Configurable.of_failing {t : Scripted σ} (h : s.Configurable) (ht : t.failing = s.failing) :
    t.Configurable :=
  ⟨fun p => ht ▸ h.setInt p, fun p => ht ▸ h.setReal p, fun p => ht ▸ h.intParameter p⟩

/-- The inner solver is configurable, and so is the scripted one. -/
def Usable (P : ParameterStore σ) (s : Scripted σ) : Prop := P.Usable s.inner ∧ s.Configurable

/-- The parameters are those of the inner solver. -/
def values (P : ParameterStore σ) (s : Scripted σ) : ParameterValues := P.values s.inner

theorem keepsParameters_delegate (h : Along P.Keeps x) :
    Along (KeepsParameters (Usable P) (values P)) (delegate x) := fun s =>
  ends_delegate.mpr <| (h s.inner).mono
    (fun _ _ hx hs => ⟨⟨(hx hs.1).1, hs.2.of_failing rfl⟩, (hx hs.1).2⟩)
    fun _ _ hx hs => ⟨⟨(hx hs.1).1, hs.2.of_failing rfl⟩, (hx hs.1).2⟩

/-- What a script needs to know does not concern the parameters. -/
theorem keepsParameters_modify {f : Scripted σ → Scripted σ}
    (h : ∀ s, (f s).inner = s.inner ∧ (f s).failing = s.failing) :
    Along (KeepsParameters (Usable P) (values P)) (modify f : SolverM (Scripted σ) PUnit) :=
  .modify fun s hs => ⟨⟨(h s).1.symm ▸ hs.1, hs.2.of_failing (h s).2⟩, congrArg P.values (h s).1⟩

theorem keepsParameters_perform (call : Call) (h : Along P.Keeps x) :
    Along (KeepsParameters (Usable P) (values P)) (perform call x) := by
  refine .bind (keepsParameters_modify fun _ => ⟨rfl, rfl⟩) fun _ => .get fun s => ?_
  refine .ite .throw_bind ?_
  exact .when (keepsParameters_modify fun _ => ⟨rfl, rfl⟩) (keepsParameters_delegate h)

theorem keepsParameters_solveScripted (call : Call) (h : Along P.Keeps x) :
    Along (KeepsParameters (Usable P) (values P)) (solveScripted call x) := by
  have hnext : Along (KeepsParameters (Usable P) (values P)) (nextDirection (σ := σ)) := by
    intro s
    rw [nextDirection, Ends.bind_iff, Ends.get_iff]
    split
    · exact fun hs => ⟨hs, rfl⟩
    · exact fun hs => ⟨⟨hs.1, hs.2.of_failing rfl⟩, rfl⟩
  refine .bind (keepsParameters_modify fun _ => ⟨rfl, rfl⟩) fun _ => .bind hnext fun direction => ?_
  cases direction with
  | solve => exact keepsParameters_delegate h
  | fail => exact .throw
  | report status =>
    exact .bind (keepsParameters_delegate h) fun _ => keepsParameters_modify fun _ => ⟨rfl, rfl⟩

omit [Solver σ] in
/-- A call that the script does not let fail does what it does to the inner solver. -/
theorem ends_perform_of_notMem (call : Call) {Q : Unit → σ → Prop} (hs : s.Configurable)
    (hcall : call.operation ∉ s.failing) (hmodification : call.isModification = false)
    (h : Ends x s.inner Q fun _ _ => False) :
    Ends (perform call x) s (fun a t => Q a t.inner ∧ t.Configurable) fun _ _ => False := by
  rw [perform, Ends.bind_iff, Ends.modify_iff, Ends.bind_iff, Ends.get_iff, Ends.ite_iff]
  refine ⟨fun hmem => hcall hmem, fun _ => ?_⟩
  rw [hmodification, if_neg Bool.false_ne_true, ends_delegate]
  exact h.mono_ok fun _ _ hx => ⟨hx, hs.of_failing rfl⟩

/-- A scripted solver stores its parameters if the inner one does, whatever the script says of all
other calls. -/
def parameterStore (P : ParameterStore σ) : ParameterStore (Scripted σ) where
  Usable := Usable P
  values := values P
  intParameter {s} h parameter := by
    rw [show Solver.intParameter s parameter = s.answerUnless (.intParameter parameter)
      (Solver.intParameter s.inner parameter) from rfl, answerUnless,
      if_neg (h.2.intParameter parameter)]
    exact P.intParameter h.1 parameter
  setInt {s} h {parameter value} hvalue :=
    (ends_perform_of_notMem (.setInt parameter value) h.2 (h.2.setInt parameter) rfl
      (P.setInt h.1 hvalue)).mono_ok fun _ _ h => ⟨⟨h.1.1, h.2⟩, h.1.2⟩
  setReal {s} h parameter value :=
    (ends_perform_of_notMem (.setReal parameter value) h.2 (h.2.setReal parameter) rfl
      (P.setReal h.1 parameter value)).mono_ok fun _ _ h => ⟨⟨h.1.1, h.2⟩, h.1.2⟩
  addColumns batch := keepsParameters_perform _ (P.addColumns batch)
  addRows batch := keepsParameters_perform _ (P.addRows batch)
  deleteColumns first last := keepsParameters_perform _ (P.deleteColumns first last)
  deleteRows first last := keepsParameters_perform _ (P.deleteRows first last)
  changeObjective columns objective :=
    keepsParameters_perform _ (P.changeObjective columns objective)
  changeBounds columns lower upper := keepsParameters_perform _ (P.changeBounds columns lower upper)
  changeSides rows lhs rhs := keepsParameters_perform _ (P.changeSides rows lhs rhs)
  setBasis basis := keepsParameters_perform _ (P.setBasis basis)
  solvePrimal := keepsParameters_solveScripted _ P.solvePrimal
  solveDual := keepsParameters_solveScripted _ P.solveDual
  restore snapshot := keepsParameters_perform _ (P.restore snapshot)

end Scripted

end CertifiedLp
