import Mathlib
import CertifiedLp.Proofs.Relaxation.Faithful

/-!
# What a dive leaves alone

During a dive, objective, bounds and sides change, rows are created, filled and appended, and the
solver is brought up to date and run. None of that concerns the coefficients of the rows that
existed when the dive started, nor the columns and rows that were active then. The sides that are
replaced are logged: to replace them in the reverse order brings back what they were when the dive
started.
-/

namespace CertifiedLp

/-- What may be done during a dive: objective, bounds and sides change, the solver is brought up to
date and run, and rows are created. The coefficients of rows from an index on may be edited, and
these rows may be appended. -/
def Action.isDiveStep (first : Nat) : Action → Bool
  | createRow .. | changeObjective .. | changeBound .. | changeSide .. | sync | solve _ | solveAnd ..
  | setIterationLimit _ => true
  | addRow r | edit _ r _ | addCoefficientsInRow r _ | delayOrder r | forceOrder r => first ≤ r.index
  | _ => false

/-- A replaced side is brought back first of all. -/
theorem Interval.replay_cons_self (sides : Interval) (r : RowRef) (side : Side) (value : Extended)
    (log : List (RowRef × Side × Extended)) :
    (sides.set side value).replay r ((r, side, sides.get side) :: log) = sides.replay r log := by
  rw [replay, List.foldl_cons, if_pos rfl, set_set, set_get, replay]

theorem Interval.replay_cons_of_ne (sides : Interval) {r : RowRef} {x : RowRef × Side × Extended}
    (hx : x.1 ≠ r) (log : List (RowRef × Side × Extended)) :
    sides.replay r (x :: log) = sides.replay r log := by
  rw [replay, List.foldl_cons, if_neg hx, replay]

namespace ConstraintMatrix

variable {m m' : ConstraintMatrix} {c : ColumnRef} {r : RowRef} {row : Row} {rows gone : Set RowRef}

/-- The coefficients of some rows are the same, and at least as much of them is known to both of
their lines. -/
def Completes (rows : Set RowRef) (m m' : ConstraintMatrix) : Prop :=
  ∀ c, ∀ r ∈ rows, m'.amount c r = m.amount c r ∧
    (m'.linked c r = m.linked c r ∨ m'.linked c r = m'.amount c r)

instance : IsPreorder ConstraintMatrix (Completes rows) where
  refl _ _ _ _ := ⟨rfl, .inl rfl⟩
  trans _ _ _ h h' c r hr := by
    obtain ⟨hamount, hlinked⟩ := h c r hr
    obtain ⟨hamount', hlinked'⟩ := h' c r hr
    refine ⟨hamount'.trans hamount, ?_⟩
    rcases hlinked' with hlinked' | hlinked'
    · exact hlinked.imp hlinked'.trans fun hlinked => hlinked'.trans (hlinked.trans hamount'.symm)
    · exact .inr hlinked'

/-- A coefficient of which both lines know everything, remains such. -/
theorem Completes.linked_eq (h : Completes rows m m') (hr : r ∈ rows)
    (hlinked : m.linked c r = m.amount c r) :
    m'.linked c r = m'.amount c r ∧ m'.linked c r = m.linked c r := by
  obtain ⟨hamount, hlinked' | hlinked'⟩ := h c r hr
  · exact ⟨hlinked'.trans (hlinked.trans hamount.symm), hlinked'⟩
  · exact ⟨hlinked', hlinked'.trans (hamount.trans hlinked.symm)⟩

theorem Sheds.completes (h : m.Sheds m') (hlive : rows ⊆ m'.live) : Completes rows m m' :=
  fun _ _ hr => ⟨h.amount (hlive hr), h.linked (hlive hr)⟩

theorem Undisturbed.completes (h : m.Undisturbed m') (hlive : rows ⊆ m'.live) : Completes rows m m' :=
  h.sheds.completes hlive

theorem completes_of_eq (hamount : m'.amount = m.amount) (hlinked : m'.linked = m.linked) :
    Completes rows m m' := fun _ _ _ => ⟨by rw [hamount], .inl (by rw [hlinked])⟩

theorem Spares.completes (h : Spares m m' c r) (hr : r ∉ rows) : Completes rows m m' :=
  fun d s hs => (h d s fun hds => hr (hds.2 ▸ hs)).imp id .inl

end ConstraintMatrix

namespace Relaxation

open ConstraintMatrix (Completes SameSpecs)

variable {σ : Type} [Solver σ] {lp t u : Relaxation σ} {c : ColumnRef} {r : RowRef} {row : Row}
variable {a : Action} {rows : Set RowRef} {actions : List Action}

/-- What is left of a relaxation in which a dive was started. -/
structure Diving (lp t : Relaxation σ) : Prop where
  nrColumns : t.matrix.columns.size = lp.matrix.columns.size
  origin : ∀ {c}, c.index < lp.matrix.columns.size →
    (t.matrix.column c).origin = (lp.matrix.column c).origin
  columns : t.columns = lp.columns
  rows : ∃ added, t.rows = lp.rows ++ added ∧ ∀ r ∈ added, lp.matrix.rows.size ≤ r.index
  coefficients : Completes lp.matrix.live lp.matrix t.matrix
  dive : ∃ dive log, lp.dive = some dive ∧ t.dive = some { dive with sideLog := log } ∧
    ∀ {r row}, lp.matrix.row? r = some row → ∃ row', t.matrix.row? r = some row' ∧
      row'.spec.constant = row.spec.constant ∧
      row'.spec.sides.replay r log.toList.reverse = row.spec.sides

/-- When a dive was just started, all is left. -/
theorem diving_refl {dive : Dive σ} (hdive : lp.dive = some dive) (hlog : dive.sideLog = #[]) :
    Diving lp lp where
  nrColumns := rfl
  origin _ := rfl
  columns := rfl
  rows := ⟨#[], Array.append_empty.symm, fun r hr => (Array.not_mem_empty r hr).elim⟩
  coefficients := refl _
  dive := ⟨dive, #[], hdive, by rw [hdive, ← hlog], fun {_ row} hrow => ⟨row, hrow, rfl, rfl⟩⟩

theorem Diving.live_subset (h : Diving lp t) : lp.matrix.live ⊆ t.matrix.live := fun r hr => by
  obtain ⟨row, hrow⟩ := Option.isSome_iff_exists.mp hr
  obtain ⟨_, _, -, -, hsides⟩ := h.dive
  obtain ⟨row', hrow', -⟩ := hsides hrow
  exact ConstraintMatrix.mem_live hrow'

/-! ## Steps -/

/-- Lines say the same, and rows that are appended were created during the dive. -/
theorem Diving.relist (h : Diving lp t) (hspecs : SameSpecs ∅ t.matrix u.matrix)
    (hcoefficients : Completes lp.matrix.live t.matrix u.matrix)
    (hnrColumns : u.matrix.columns.size = t.matrix.columns.size) (hcolumns : u.columns = t.columns)
    (hrows : u.rows = t.rows ∨ ∃ r, u.rows = t.rows.push r ∧ lp.matrix.rows.size ≤ r.index)
    (hdive : u.dive = t.dive) : Diving lp u where
  nrColumns := hnrColumns.trans h.nrColumns
  origin hc := (hspecs.origin (hc.trans_eq h.nrColumns.symm)).trans (h.origin hc)
  columns := hcolumns.trans h.columns
  rows := by
    obtain ⟨added, heq, hadded⟩ := h.rows
    rcases hrows with hrows | ⟨r, hrows, hr⟩
    · exact ⟨added, hrows.trans heq, hadded⟩
    · refine ⟨added.push r, by rw [hrows, heq, Array.append_push], fun s hs => ?_⟩
      rcases Array.mem_push.mp hs with hs | rfl
      · exact hadded s hs
      · exact hr
  coefficients := IsTrans.trans _ _ _ h.coefficients hcoefficients
  dive := by
    obtain ⟨dive, log, hstart, hdive', hsides⟩ := h.dive
    refine ⟨dive, log, hstart, hdive.trans hdive', fun hrow => ?_⟩
    obtain ⟨row₁, hrow₁, hconstant, hreplay⟩ := hsides hrow
    obtain ⟨row₂, hrow₂, hspec⟩ := hspecs.exists_row (Set.notMem_empty _) hrow₁
    exact ⟨row₂, hrow₂, by rw [hspec, hconstant], by rw [hspec, hreplay]⟩

theorem Diving.of_intact (h : Diving lp t) (hintact : Intact t u)
    (hcoefficients : Completes lp.matrix.live t.matrix u.matrix) : Diving lp u :=
  h.relist hintact.matrix hcoefficients hintact.nrColumns hintact.columns (.inl hintact.rows)
    hintact.dive

/-- What brings the solver up to date tells coefficients to both of their lines. -/
theorem Diving.ends_of_intact {x : RelaxationM σ Unit} (h : Diving lp t) (ht : t.Coherent)
    (hintact : Along Intact x) (hcarries : Along (Carries ConstraintMatrix.Sheds) x) :
    Ends x t (fun _ u => Diving lp u) fun _ u => Diving lp u := by
  have hdiving {u : Relaxation σ} (hintact : Intact t u)
      (hcarries : Carries ConstraintMatrix.Sheds t u) : Diving lp u :=
    h.of_intact hintact ((hcarries ht).matrix.completes
      (h.live_subset.trans hintact.matrix.live_subset))
  exact ((hintact t).and (hcarries t)).mono (fun _ _ hu => hdiving hu.1 hu.2)
    fun _ _ hu => hdiving hu.1 hu.2

theorem Diving.of_respecified {spec : ColumnSpec} (h : Diving lp t)
    (hspec : Respecified c spec t u) : Diving lp u := by
  have hkept := hspec.rowsKept
  have hrow (r : RowRef) : u.matrix.row? r = t.matrix.row? r := by
    rw [ConstraintMatrix.row?, hkept.matrixRows, ConstraintMatrix.row?]
  obtain ⟨added, heq, hadded⟩ := h.rows
  obtain ⟨dive, log, hstart, hdive, hsides⟩ := h.dive
  exact {
    nrColumns := hkept.nrColumns.trans h.nrColumns
    origin := fun {c} hc => (hkept.origin c).trans (h.origin hc)
    columns := hspec.columns.trans h.columns
    rows := ⟨added, hkept.rows.trans heq, hadded⟩
    coefficients := IsTrans.trans _ _ _ h.coefficients (ConstraintMatrix.completes_of_eq
      (ConstraintMatrix.amount_of_shape hspec.quiet.shape)
      (ConstraintMatrix.linked_of_shape hspec.quiet.shape))
    dive := ⟨dive, log, hstart, hkept.dive.trans hdive, fun {r _} hr => by
      obtain ⟨row', hrow', hsame⟩ := hsides hr
      exact ⟨row', (hrow r).trans hrow', hsame⟩⟩ }

/-- A side that is replaced is logged. -/
theorem Diving.ends_changeSide (h : Diving lp t) (r : RowRef) (side : Side) (value : Extended) :
    Ends (changeSide r side value) t (fun _ u => Diving lp u) fun _ u => Diving lp u := by
  cases hrow : t.matrix.row? r with
  | none =>
    exact (ends_changeSide_missing hrow side value).mono (fun _ _ h => h.elim) fun _ _ hu => hu ▸ h
  | some row =>
    refine (Relaxation.ends_changeSide hrow side value).mono ?_ fun _ _ hu => hu ▸ h
    rintro _ u ⟨hspec, hlogged⟩
    obtain ⟨f, b, hmatrix, hf⟩ := hspec.matrix
    have hnrColumns : u.matrix.columns.size = t.matrix.columns.size := by rw [hmatrix]; rfl
    have hcolumn (c : ColumnRef) : u.matrix.column c = t.matrix.column c := by rw [hmatrix]; rfl
    have hother {s : RowRef} (hs : r ≠ s) : u.matrix.row? s = t.matrix.row? s := by
      rw [hmatrix]
      exact (ConstraintMatrix.row?_modifyRow ..).trans (if_neg hs)
    have hself : u.matrix.row? r = some (f row) := by
      rw [hmatrix]
      exact (ConstraintMatrix.row?_modifyRow ..).trans (by rw [if_pos rfl, hrow, Option.map_some])
    obtain ⟨added, heq, hadded⟩ := h.rows
    obtain ⟨dive, log, hstart, hdive, hsides⟩ := h.dive
    refine ⟨hnrColumns.trans h.nrColumns, fun {c} hc => (hcolumn c).symm ▸ h.origin hc,
      hspec.columns.trans h.columns, ⟨added, hspec.rows.trans heq, hadded⟩,
      IsTrans.trans _ _ _ h.coefficients (ConstraintMatrix.completes_of_eq
        (ConstraintMatrix.amount_of_shape hspec.quiet.shape)
        (ConstraintMatrix.linked_of_shape hspec.quiet.shape)), ?_⟩
    by_cases hsame : row.spec.sides.get side = value
    · rw [if_pos hsame] at hlogged
      refine ⟨dive, log, hstart, hlogged.trans hdive, fun {s row₀} hrow₀ => ?_⟩
      obtain ⟨row₁, hrow₁, hconstant, hreplay⟩ := hsides hrow₀
      by_cases hs : r = s
      · subst hs
        obtain rfl := Option.some.inj (hrow.symm.trans hrow₁)
        refine ⟨_, hself, by rw [hf.spec, hconstant], ?_⟩
        rw [hf.spec, ← hsame, Interval.set_get, hreplay]
      · exact ⟨row₁, (hother hs).trans hrow₁, hconstant, hreplay⟩
    · rw [if_neg hsame, hdive, Option.map_some] at hlogged
      refine ⟨dive, _, hstart, hlogged, fun {s row₀} hrow₀ => ?_⟩
      obtain ⟨row₁, hrow₁, hconstant, hreplay⟩ := hsides hrow₀
      rw [Array.toList_push, List.reverse_append, List.reverse_singleton, List.singleton_append]
      by_cases hs : r = s
      · subst hs
        obtain rfl := Option.some.inj (hrow.symm.trans hrow₁)
        refine ⟨_, hself, by rw [hf.spec, hconstant], ?_⟩
        rw [hf.spec, Interval.replay_cons_self, hreplay]
      · exact ⟨row₁, (hother hs).trans hrow₁, hconstant, by
          rw [Interval.replay_cons_of_ne _ hs, hreplay]⟩

/-! ## New rows -/

/-- No line was moved, and the coefficients of some rows are what they were. -/
structure Spared (rows : Set RowRef) (t u : Relaxation σ) : Prop where
  unmoved : Unmoved t u
  coherent : u.Coherent
  coefficients : Completes rows t.matrix u.matrix

theorem Coherent.spared (ht : t.Coherent) : Spared rows t t := ⟨refl t, ht, refl _⟩

theorem Spared.trans {v : Relaxation σ} (h : Spared rows t u) (h' : Spared rows u v) :
    Spared rows t v :=
  ⟨IsTrans.trans _ _ _ h.unmoved h'.unmoved, h'.coherent,
    IsTrans.trans _ _ _ h.coefficients h'.coefficients⟩

theorem Unmoved.live_subset (h : Unmoved t u) (hrows : rows ⊆ t.matrix.live) :
    rows ⊆ u.matrix.live := fun r hr => (h.stays.isSome_row? r).trans (hrows hr)

/-- An edit of another row. -/
theorem Coherent.ends_edit_spared (ht : t.Coherent) (hc : t.matrix.Has (.column c)) (hr : r ∉ rows)
    (e : Edit) : Ends (edit c r e) t (fun _ u => Spared rows t u) fun _ u => Spared rows t u := by
  cases hrow : t.matrix.row? r with
  | none =>
    refine (ends_edit_missing hrow c e).mono (fun _ _ h => h.elim) ?_
    rintro _ _ rfl
    exact ht.spared
  | some row =>
    exact (ht.ends_edit hc hrow e).mono
      (fun _ _ h => ⟨h.unmoved, h.coherent ht, h.matrix.spares.completes hr⟩)
      fun _ _ h => ⟨h.unmoved, h.coherent ht, h.matrix.spares.completes hr⟩

theorem Coherent.ends_delayOrder_spared (ht : t.Coherent) (hrows : rows ⊆ t.matrix.live)
    (r : RowRef) : Ends (delayOrder r) t (fun _ u => Spared rows t u) fun _ u => Spared rows t u :=
  (ht.ends_delayOrder r).mono
    (fun _ _ h => ⟨h.1, h.2.coherent, h.2.matrix.completes (h.1.live_subset hrows)⟩)
    fun _ _ h => ⟨h.1, h.2.coherent, h.2.matrix.completes (h.1.live_subset hrows)⟩

theorem Coherent.ends_forceOrder_spared (ht : t.Coherent) (hrows : rows ⊆ t.matrix.live)
    (r : RowRef) : Ends (forceOrder r) t (fun _ u => Spared rows t u) fun _ u => Spared rows t u :=
  (ht.ends_forceOrder r).mono
    (fun _ _ h => ⟨h.1, h.2.coherent, h.2.matrix.completes (h.1.live_subset hrows)⟩)
    fun _ _ h => ⟨h.1, h.2.coherent, h.2.matrix.completes (h.1.live_subset hrows)⟩

theorem Coherent.ends_addCoefficientsInRow_spared (ht : t.Coherent) (hrows : rows ⊆ t.matrix.live)
    (hr : r ∉ rows) {coefficients : List (ColumnRef × Extended)}
    (hc : ∀ x ∈ coefficients, t.matrix.Has (.column x.1)) :
    Ends (addCoefficientsInRow r coefficients) t (fun _ u => Spared rows t u)
      fun _ u => Spared rows t u := by
  have hall {u : Relaxation σ} (hu : Spared rows t u) :
      Ends (forIn coefficients PUnit.unit fun x _ => do
          addCoefficientInRow r x.1 x.2
          pure (ForInStep.yield PUnit.unit) : RelaxationM σ PUnit) u
        (fun _ v => Spared rows t v) fun _ v => Spared rows t v := by
    refine Ends.forIn_keeps (fun v => Spared rows t v) hu fun x hx v hv => ?_
    rw [Ends.bind_iff]
    exact (hv.coherent.ends_edit_spared (hv.unmoved.has_column (hc x hx)) hr (.addInRow x.2)).mono
      (fun _ _ hw => ⟨rfl, hv.trans hw⟩) fun _ _ hw => hv.trans hw
  rw [addCoefficientsInRow, Ends.bind_iff, ends_getRow_iff]
  refine ⟨fun row _ => ?_, fun _ => ht.spared⟩
  rw [Ends.ite_iff]
  refine ⟨fun htogether => ?_, fun hseparate => ?_⟩
  · rw [Ends.bind_iff]
    refine (ht.ends_delayOrder_spared hrows r).mono (fun _ u hu => ?_) fun _ _ hu => hu
    rw [Ends.bind_iff]
    refine (hall hu).mono_ok fun _ v hv => ?_
    rw [if_pos htogether]
    exact (hv.coherent.ends_forceOrder_spared (hv.unmoved.live_subset hrows) r).mono
      (fun _ _ hw => hv.trans hw) fun _ _ hw => hv.trans hw
  · rw [Ends.bind_iff]
    refine (hall ht.spared).mono_ok fun _ u hu => ?_
    rw [if_neg hseparate]
    exact hu

/-- The coefficients of a row that was created during the dive are edited. -/
theorem Diving.ends_of_spared {x : RelaxationM σ Unit} (h : Diving lp t)
    (hsteady : Along (Steady Whatever (.edits ∅)) x)
    (hspared : Ends x t (fun _ u => Spared lp.matrix.live t u) fun _ u => Spared lp.matrix.live t u) :
    Ends x t (fun _ u => Diving lp u) fun _ u => Diving lp u :=
  ((hsteady t).and hspared).mono (fun _ _ hu => h.of_intact hu.1.intact hu.2.coefficients)
    fun _ _ hu => h.of_intact hu.1.intact hu.2.coefficients

theorem Diving.ends_addRow (h : Diving lp t) (ht : t.Coherent) (hr : lp.matrix.rows.size ≤ r.index) :
    Ends (addRow r) t (fun _ u => Diving lp u) fun _ u => Diving lp u := by
  have hadd : Ends (addRow r) t
      (fun _ u => Steady Whatever (.edits ∅) { t with rows := t.rows.push r } u)
      fun _ u => Steady Whatever (.edits ∅) t u := ends_addRow_steady _ r
  refine ((Relaxation.ends_addRow ht r).and hadd).mono ?_ ?_
  · rintro _ u ⟨hcarried, hsteady⟩
    have hspecs : SameSpecs ∅ t.matrix u.matrix := hsteady.matrix.sameSpecs
    exact h.relist hspecs (hcarried.matrix.completes (h.live_subset.trans hspecs.live_subset))
      hsteady.matrix.size hsteady.columns (.inr ⟨r, hsteady.rows, hr⟩) hsteady.dive
  · rintro _ u ⟨⟨hcarried, -⟩, hsteady⟩
    exact h.of_intact hsteady.intact (hcarried.matrix.completes
      (h.live_subset.trans hsteady.matrix.sameSpecs.live_subset))

/-! ## Runs -/

/-- Whatever may be done during a dive, succeeds or fails, and leaves what has to be left. -/
theorem Diving.ends_perform (h : Diving lp t) (ht : t.Coherent) (ha : t.Permits a)
    (hstep : a.isDiveStep lp.matrix.rows.size = true) :
    Ends (perform a) t (fun _ u => Diving lp u) fun _ u => Diving lp u := by
  have hlive {r : RowRef} (hr : lp.matrix.rows.size ≤ r.index) : r ∉ lp.matrix.live :=
    fun hmem => absurd (ConstraintMatrix.index_lt_of_mem_live hmem) (Nat.not_lt.mpr hr)
  cases a with
  | createRow name spec =>
    have hcreate := (ends_createRow ht name spec).and (intact_createRow name spec t)
    refine Ends.bind_iff.mpr (hcreate.mono (fun _ u hu => ?_) fun _ u hu => hu.1 ▸ h)
    exact h.of_intact hu.2 (ConstraintMatrix.completes_of_eq hu.1.2.1 hu.1.2.2)
  | addRow r => exact h.ends_addRow ht (by simpa [Action.isDiveStep] using hstep)
  | changeObjective c objective =>
    exact (ends_changeObjective c objective).mono (fun _ _ hu => h.of_respecified hu.1)
      fun _ _ hu => hu ▸ h
  | changeBound c side value =>
    exact (ends_changeBound c side value).mono (fun _ _ hu => h.of_respecified hu)
      fun _ _ hu => hu ▸ h
  | changeSide r side value => exact h.ends_changeSide r side value
  | edit c r e =>
    exact h.ends_of_spared (steady_edit c r e) (ht.ends_edit_spared (ha c List.mem_cons_self)
      (hlive (by simpa [Action.isDiveStep] using hstep)) e)
  | addCoefficientsInRow r coefficients =>
    exact h.ends_of_spared (steady_addCoefficientsInRow r coefficients)
      (ht.ends_addCoefficientsInRow_spared h.live_subset
        (hlive (by simpa [Action.isDiveStep] using hstep)) fun x hx => ha x.1 (List.mem_map_of_mem hx))
  | delayOrder r =>
    exact h.ends_of_spared (steady_delayOrder r) (ht.ends_delayOrder_spared h.live_subset r)
  | forceOrder r =>
    exact h.ends_of_spared (steady_forceOrder r) (ht.ends_forceOrder_spared h.live_subset r)
  | sync => exact h.ends_of_intact ht intact_sync along_sync
  | solve a =>
    exact h.ends_of_intact ht (along_forgetful (intact_solve a))
      (along_forgetful (bears_carries.solve a))
  | solveAnd write a =>
    exact h.ends_of_intact ht (along_forgetful (intact_solveAnd write a))
      (along_forgetful (bears_carries.solveAnd write a))
  | setIterationLimit limit => exact ⟨h.nrColumns, h.origin, h.columns, h.rows, h.coefficients, h.dive⟩
  | _ => cases hstep

theorem Diving.performAll (h : Diving lp t) (ht : t.Coherent)
    (hactions : Throughout Permits t actions)
    (hsteps : ∀ a ∈ actions, a.isDiveStep lp.matrix.rows.size = true) :
    Diving lp (t.performAll actions) := by
  induction actions generalizing t with
  | nil => exact h
  | cons a rest ih =>
    exact ih (h.ends_perform ht hactions.1 (hsteps a List.mem_cons_self)).state
      (ht.perform hactions.1) hactions.2 fun b hb => hsteps b (List.mem_cons_of_mem a hb)

end Relaxation

end CertifiedLp
