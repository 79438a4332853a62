import Mathlib
import CertifiedLp.Proofs.Relaxation.Silence
import CertifiedLp.Proofs.Relaxation.Tracking
import CertifiedLp.Proofs.Solver.Parameters

/-!
# Settings and parameters

Only three operations change the settings of a relaxation, and only these and the solves set
parameters of its solver. If the solver stores its parameters, then it has the pricing rule and the
scaling that the settings say.
-/

namespace CertifiedLp

/-- Whatever a solver is told about lines, its parameters stay the same. -/
theorem Solver.ParameterStore.updates {σ : Type} [Solver σ] (P : Solver.ParameterStore σ) :
    Solver.Updates P.Keeps where
  addColumns := P.addColumns
  addRows := P.addRows
  deleteColumns := P.deleteColumns
  deleteRows := P.deleteRows
  changeObjective := P.changeObjective
  changeBounds := P.changeBounds
  changeSides := P.changeSides

namespace Relaxation

variable {σ : Type} [Solver σ] {S : σ → σ → Prop} {lp t : Relaxation σ} {scope : Scope} {α : Type}

/-! ## Operations that keep the settings -/

/-- The settings are the same, and the states of the solver are related. -/
structure KeepsSettings (S : σ → σ → Prop) (lp t : Relaxation σ) : Prop where
  solver : S lp.solver t.solver
  settings : t.settings = lp.settings

theorem Informed.keepsSettings (h : Informed S lp t) : KeepsSettings S lp t :=
  ⟨h.solver, h.settings⟩

theorem Unedited.keepsSettings (h : Unedited S lp t) : KeepsSettings S lp t :=
  ⟨h.solver, h.settings⟩

theorem Steady.keepsSettings (h : Steady S scope lp t) : KeepsSettings S lp t :=
  ⟨h.solver, h.settings⟩

theorem RowsSteady.keepsSettings (h : RowsSteady S scope lp t) : KeepsSettings S lp t := by
  obtain ⟨rows, h⟩ := h
  exact ⟨h.solver, h.settings⟩

theorem keepsSettings_of_unedited {x : RelaxationM σ α} (h : Along (Unedited S) x) :
    Along (KeepsSettings S) x := h.mono fun _ _ => Unedited.keepsSettings

theorem keepsSettings_of_steady {x : RelaxationM σ α} (h : Along (Steady S (.edits Set.univ)) x) :
    Along (KeepsSettings S) x := h.mono fun _ _ => Steady.keepsSettings

theorem keepsSettings_onSolver {x : SolverM σ α} (h : Along S x) :
    Along (KeepsSettings S) (onSolver x) := fun lp =>
  ends_onSolver.mpr ((h lp.solver).mono (fun _ _ hs => ⟨hs, rfl⟩) fun _ _ hs => ⟨hs, rfl⟩)

variable [IsPreorder σ S]

instance : IsPreorder (Relaxation σ) (KeepsSettings S) where
  refl _ := ⟨refl _, rfl⟩
  trans _ _ _ h h' := ⟨IsTrans.trans _ _ _ h.solver h'.solver, h'.settings.trans h.settings⟩

theorem keepsSettings_of_eq (hsolver : t.solver = lp.solver) (hsettings : t.settings = lp.settings) :
    KeepsSettings S lp t := ⟨hsolver ▸ refl _, hsettings⟩

theorem keepsSettings_modify {f : Relaxation σ → Relaxation σ}
    (h : ∀ lp, (f lp).solver = lp.solver ∧ (f lp).settings = lp.settings) :
    Along (KeepsSettings S) (modify f : RelaxationM σ PUnit) :=
  .modify fun lp => keepsSettings_of_eq (h lp).1 (h lp).2

theorem keepsSettings_markUnsolved : Along (KeepsSettings S) (markUnsolved : RelaxationM σ Unit) :=
  keepsSettings_of_unedited unedited_markUnsolved

/-! ## Edits -/

theorem keepsSettings_createColumn (problem : Problem) (x : VariableRef) :
    Along (KeepsSettings S) (createColumn problem x : RelaxationM σ (Problem × ColumnRef)) :=
  fun lp => ends_createColumn_iff.mpr ⟨fun _ => refl lp, fun _ => ⟨fun _ => refl lp, fun _ =>
    keepsSettings_of_eq rfl rfl⟩⟩

theorem keepsSettings_createRow (name : String) (spec : RowSpec) :
    Along (KeepsSettings S) (createRow name spec : RelaxationM σ RowRef) := fun lp =>
  ends_createRow_iff.mpr ⟨fun _ => refl lp, fun _ => keepsSettings_of_eq rfl rfl⟩

theorem keepsSettings_addColumn (c : ColumnRef) :
    Along (KeepsSettings S) (addColumn c : RelaxationM σ Unit) := fun _ =>
  (ends_addColumn_steady (.edits ∅) c).mono (fun _ _ h => ⟨h.2.solver, h.2.settings⟩)
    fun _ _ h => h.keepsSettings

theorem keepsSettings_addRow (r : RowRef) :
    Along (KeepsSettings S) (addRow r : RelaxationM σ Unit) := fun _ =>
  (ends_addRow_steady (.edits ∅) r).mono (fun _ _ h => RowsSteady.keepsSettings ⟨_, h⟩)
    fun _ _ h => h.keepsSettings

theorem keepsSettings_shrinkColumns (size : Nat) :
    Along (KeepsSettings S) (shrinkColumns size : RelaxationM σ Unit) := by
  refine fun lp => (ends_shrinkColumns_steady (S := S) (.edits ∅) size).mono ?_ ?_
  · intro _ t h
    exact ⟨h.solver, h.settings⟩
  · rintro _ t ⟨columns, loose, h⟩
    exact ⟨h.solver, h.settings⟩

theorem keepsSettings_shrinkRows (size : Nat) :
    Along (KeepsSettings S) (shrinkRows size : RelaxationM σ Unit) :=
  (rowsSteady_shrinkRows True size).mono fun _ _ => RowsSteady.keepsSettings

theorem keepsSettings_deleteRows (mask : Array Bool) :
    Along (KeepsSettings S) (deleteRows mask : RelaxationM σ Unit) :=
  (rowsSteady_deleteRows True mask).mono fun _ _ => RowsSteady.keepsSettings

theorem Restated.keepsSettings (h : Restated lp t) : KeepsSettings S lp t :=
  keepsSettings_of_eq h.solver h.settings

theorem admitsChanges_keepsSettings :
    AdmitsChanges (KeepsSettings S : Relaxation σ → Relaxation σ → Prop) where
  respecified h := h.keepsSettings
  rowRespecified _ h := h.keepsSettings

/-! ## Bringing the solver up to date -/

section Storing

variable {P : Solver.ParameterStore σ}

theorem keepsSettings_sync : Along (KeepsSettings P.Keeps) (sync : RelaxationM σ Unit) :=
  (informed_sync P.updates).mono fun _ _ => Informed.keepsSettings

/-! ## Setting parameters -/

/-- The parameters of the solver have given values, and nothing but the solver differs. -/
structure Given (P : Solver.ParameterStore σ) (v : ParameterValues) (lp t : Relaxation σ) : Prop where
  usable : P.Usable t.solver
  values : P.values t.solver = v
  rest : t = { lp with solver := t.solver }

variable {v : ParameterValues}

theorem given_self (h : P.Usable lp.solver) : Given P (P.values lp.solver) lp lp := ⟨h, rfl, rfl⟩

/-- What a call does to the parameters is what it does to them in the solver. -/
theorem Given.ends_onSolver {x : SolverM σ α} {v' : ParameterValues} (h : Given P v lp t)
    (hx : Ends x t.solver (fun _ s => P.Usable s ∧ P.values s = v') fun _ _ => False) :
    Ends (onSolver x) t (fun _ u => Given P v' lp u) fun _ _ => False :=
  Relaxation.ends_onSolver.mpr <| hx.mono_ok fun _ _ hs => ⟨hs.1, hs.2, by rw [h.rest]⟩

theorem Given.ends_setInt (h : Given P v lp t) {parameter : IntParameter} {value : Int}
    (hvalue : parameter.Admits value) :
    Ends (onSolver (Solver.setInt parameter value)) t
      (fun _ u => Given P (v.setInt parameter value) lp u) fun _ _ => False :=
  h.ends_onSolver (h.values ▸ P.setInt h.usable hvalue)

theorem Given.ends_setReal (h : Given P v lp t) (parameter : RealParameter) (value : Extended) :
    Ends (onSolver (Solver.setReal parameter value)) t
      (fun _ u => Given P (v.setReal parameter value) lp u) fun _ _ => False :=
  h.ends_onSolver (h.values ▸ P.setReal h.usable parameter value)

/-! ## Pricing and scaling -/

/-- The solver can be configured, and has the pricing rule and the scaling of the settings. -/
structure Configured (P : Solver.ParameterStore σ) (lp : Relaxation σ) : Prop where
  usable : P.Usable lp.solver
  pricing : (P.values lp.solver).int .pricing = lp.settings.pricing.code
  scaling : (P.values lp.solver).int .scaling = if lp.settings.scaling then 1 else 0

theorem KeepsSettings.configured (h : KeepsSettings P.Keeps lp t) (hlp : lp.Configured P) :
    t.Configured P := by
  obtain ⟨husable, hvalues⟩ := h.solver hlp.usable
  refine ⟨husable, ?_, ?_⟩
  · rw [hvalues, h.settings]
    exact hlp.pricing
  · rw [hvalues, h.settings]
    exact hlp.scaling

theorem configured_of_keepsSettings {x : RelaxationM σ α} (h : Along (KeepsSettings P.Keeps) x) :
    Along (Preserves (Configured P)) x := h.mono fun _ _ => KeepsSettings.configured

/-- New settings are passed on to the solver. -/
theorem ends_setSettings (husable : P.Usable lp.solver) (settings : Settings) :
    Ends (setSettings settings) lp (fun _ t => t.Configured P) fun _ _ => False := by
  refine Ends.bind_unfailing ((given_self husable).ends_setInt (admits_pricing settings.pricing))
    fun _ t ht => ?_
  refine Ends.bind_unfailing (ht.ends_setInt (admits_scaling settings.scaling)) fun _ u hu => ?_
  exact ⟨hu.usable, by simp [hu.values], by simp [hu.values]⟩

theorem configured_setSettings (settings : Settings) :
    Along (Preserves (Configured P)) (setSettings settings : RelaxationM σ Unit) :=
  along_preserves fun _ h => (ends_setSettings h.usable settings).mono (fun _ _ ht => ht)
    fun _ _ ht => ht.elim

/-- The iteration limit has nothing to do with pricing and scaling. -/
theorem configured_setIterationLimit (limit : Option Nat) :
    Along (Preserves (Configured P)) (setIterationLimit limit : RelaxationM σ Unit) :=
  .modify fun _ h => ⟨h.usable, h.pricing, h.scaling⟩

theorem configured_create {solver : σ} {settings : Settings} (husable : P.Usable solver)
    (h : create solver settings = .ok lp) : lp.Configured P :=
  (ends_setSettings husable settings).of_ok (of_create h).2

end Storing

end Relaxation

end CertifiedLp
