import Mathlib
import CertifiedLp.Proofs.Relaxation.Aggregates
import CertifiedLp.Proofs.Relaxation.Diving

/-!
# A dive is rolled back

The end of a dive resets the columns, brings the sides of the rows back, and removes the rows that
were appended. Then the active linear program is the one in which the dive was started, and since
the solver was brought up to date at both ends, it holds the same, and starts from the same basis.
-/

namespace CertifiedLp

namespace Simplex

variable {s t : Simplex}

/-- A solver that holds the same and is given the statuses, has the same columns and rows. -/
theorem SameContents.withBasis (h : SameContents s t) :
    (t.withBasis s.basis).columns = s.columns ∧ (t.withBasis s.basis).rows = s.rows := by
  constructor
  · refine Array.ext_getElem? fun i => ?_
    have hcolumn := h.column i
    rw [Simplex.withBasis, Array.getElem?_mapIdx]
    cases ht : t.columns[i]? with
    | none =>
      rw [ht] at hcolumn
      exact (Option.map_eq_none_iff.mp hcolumn.symm).symm
    | some column =>
      rw [ht, Option.map_some] at hcolumn
      obtain ⟨column', hs, hbare⟩ := Option.map_eq_some_iff.mp hcolumn.symm
      rw [hs, Option.map_some, basis, Array.getD_eq_getD_getElem?, Array.getElem?_map, hs]
      rcases column with ⟨objective, bounds, status⟩
      rcases column' with ⟨objective', bounds', status'⟩
      cases hbare
      rfl
  · refine Array.ext_getElem? fun j => ?_
    have hrow := h.row j
    rw [Simplex.withBasis, Array.getElem?_mapIdx]
    cases ht : t.rows[j]? with
    | none =>
      rw [ht] at hrow
      exact (Option.map_eq_none_iff.mp hrow.symm).symm
    | some row =>
      rw [ht, Option.map_some] at hrow
      obtain ⟨row', hs, hbare⟩ := Option.map_eq_some_iff.mp hrow.symm
      rw [hs, Option.map_some, basis, Array.getD_eq_getD_getElem?, Array.getElem?_map, hs]
      rcases row with ⟨coefficients, sides, status⟩
      rcases row' with ⟨coefficients', sides', status'⟩
      cases hbare
      rfl

/-- A basis of the right size is taken over. -/
theorem ends_setBasis_of_sameContents (h : SameContents s t) :
    Ends (setBasis s.basis) t (fun _ u => u = t.withBasis s.basis) fun _ _ => False := by
  have hcolumns : s.basis.columns.size = t.nrColumns := by
    rw [h.nrColumns, basis, Array.size_map, nrColumns]
  have hrows : s.basis.rows.size = t.nrRows := by
    rw [h.nrRows, basis, Array.size_map, nrRows]
  rw [setBasis, Ends.bind_iff, Ends.get_iff, if_pos (by simp [hcolumns, hrows])]
  rfl

/-- The iteration limit is told exactly, as far as it counts as a limit. -/
theorem ends_setIterationLimit (limit : Option Nat) (s : Simplex) :
    Ends (setInt .iterationLimit (iterationLimitCode limit)) s
      (fun _ t => t.intParameter .iterationLimit = iterationLimitCode limit) fun _ _ => False := by
  have hnonneg : 0 ≤ iterationLimitCode limit := by
    cases limit with
    | none => decide
    | some n => exact le_min (Int.natCast_nonneg n) (by decide)
  have hle : iterationLimitCode limit ≤ noLimit := by
    cases limit with
    | none => exact le_refl _
    | some n => exact min_le_right _ _
  rw [setInt, Ends.ite_iff]
  refine ⟨fun hnone => ?_, fun _ => ?_⟩
  · rw [configure, Ends.modify_iff, hnone]
    rfl
  · rw [if_neg (Int.not_lt.mpr hnonneg), configure, Ends.modify_iff, intParameter, iterationLimitCode,
      Int.toNat_of_nonneg hnonneg, min_eq_left hle]

end Simplex

namespace ConstraintMatrix

variable {m : ConstraintMatrix} {c : ColumnRef} {r : RowRef}

/-- Every entry of a column for a row, and of the row for the column, has its counterpart. -/
def Linked (m : ConstraintMatrix) (c : ColumnRef) (r : RowRef) : Prop :=
  (∀ x ∈ m.grid.stored (.column c) (.row r), x.2 = true) ∧
    ∀ x ∈ m.grid.stored (.row r) (.column c), x.2 = true

instance (m : ConstraintMatrix) (c : ColumnRef) (r : RowRef) : Decidable (m.Linked c r) :=
  inferInstanceAs (Decidable (_ ∧ _))

/-- Then both of them know the whole coefficient. -/
theorem Linked.linked_eq_amount (h : m.Linked c r) : m.linked c r = m.amount c r := by
  have hrow : (m.grid.stored (.row r) (.column c)).filter (·.2 = false) = 0 :=
    Multiset.filter_eq_nil.mpr fun x hx => by simp [h.2 x hx]
  rw [linked, linkedTotal, Multiset.filter_eq_self.mpr h.1, amount, content, hrow, Multiset.map_zero,
    add_zero, Multiset.map_map]
  rfl

end ConstraintMatrix

namespace Relaxation

open ConstraintMatrix (Completes SameSpecs)
open Simplex (SameContents respects_sameContents)

section Edits

variable {σ : Type} [Solver σ] {lp t u v : Relaxation σ} {problem : Problem}

/-! ## Undoing -/

/-- Columns have the objective and the bounds of their variables, and the rows that existed say what
they said. -/
structure Rewound (problem : Problem) (lp t : Relaxation σ) : Prop where
  nrColumns : t.matrix.columns.size = lp.matrix.columns.size
  column : ∀ {c}, c.index < lp.matrix.columns.size →
    (t.matrix.column c).spec = (problem.get (lp.matrix.column c).origin).spec
  columns : t.columns = lp.columns
  row : ∀ {r row}, lp.matrix.row? r = some row →
    ∃ row', t.matrix.row? r = some row' ∧ row'.spec = row.spec
  coefficients : Completes lp.matrix.live lp.matrix t.matrix

/-- Other rows may be gone. -/
theorem Rewound.step (h : Rewound problem lp t) {gone : Set RowRef}
    (hspecs : SameSpecs gone t.matrix u.matrix) (hgone : Disjoint lp.matrix.live gone)
    (hsheds : t.matrix.Sheds u.matrix)
    (hnrColumns : u.matrix.columns.size = t.matrix.columns.size) (hcolumns : u.columns = t.columns) :
    Rewound problem lp u := by
  have hrow {r : RowRef} {row : Row} (hrow : lp.matrix.row? r = some row) :
      ∃ row', u.matrix.row? r = some row' ∧ row'.spec = row.spec := by
    obtain ⟨row₁, hrow₁, hspec₁⟩ := h.row hrow
    have hstays := Set.disjoint_left.mp hgone (ConstraintMatrix.mem_live hrow)
    obtain ⟨row₂, hrow₂, hspec⟩ := hspecs.exists_row hstays hrow₁
    exact ⟨row₂, hrow₂, hspec.trans hspec₁⟩
  refine ⟨hnrColumns.trans h.nrColumns, fun hc => (hspecs.column (hc.trans_eq h.nrColumns.symm)).trans
    (h.column hc), hcolumns.trans h.columns, hrow, ?_⟩
  refine IsTrans.trans _ _ _ h.coefficients (hsheds.completes fun r hr => ?_)
  obtain ⟨row, hr⟩ := Option.isSome_iff_exists.mp hr
  obtain ⟨row', hrow', -⟩ := hrow hr
  exact ConstraintMatrix.mem_live hrow'

/-- What brings the solver up to date, or does not even that. -/
theorem Rewound.of_intact (h : Rewound problem lp t) (hintact : Intact t u)
    (hsheds : t.matrix.Sheds u.matrix) : Rewound problem lp u :=
  h.step hintact.matrix (Set.disjoint_empty _) hsheds hintact.nrColumns hintact.columns

theorem quiet_resetColumns (problem : Problem) :
    Along Quiet (resetColumns problem : RelaxationM σ Unit) := by
  refine .get fun lp => .bind (.forIn (fun c _ => .bind ?_ fun _ => .pure) _) fun _ => .pure
  exact .bind (along_getColumn c) fun _ => .bind (admitsChanges_quiet.changeObjective c _) fun _ =>
    .bind (admitsChanges_quiet.changeBound c _ _) fun _ => admitsChanges_quiet.changeBound c _ _

theorem quiet_replaySides (log : List (RowRef × Side × Extended)) :
    Along Quiet (replaySides log : RelaxationM σ Unit) := by
  refine .bind (.forIn (fun x _ => .get fun lp => .ite ?_ .pure) _) fun _ => .pure
  exact .bind (admitsChanges_quiet.changeSide _ _ _) fun _ => .pure

/-- After the columns were reset, and sides brought back. -/
theorem Replayed.rewound (h : Diving lp t) {dive : Dive σ} (hdive : t.dive = some dive)
    {t₁ : Relaxation σ} (hkept : RowsKept { t with dive := none } t₁)
    (hreset : ∀ {c}, c.index < t₁.matrix.columns.size → (t₁.matrix.column c).IsReset problem)
    (hreplayed : Replayed (undoLog dive) t₁ u) (hquiet : Quiet t u) :
    Rewound problem lp u ∧ u.rows = t.rows := by
  obtain ⟨_, log, -, hlog, hsides⟩ := h.dive
  obtain rfl := Option.some.inj (hlog.symm.trans hdive)
  obtain ⟨⟨_, _, _, _, heq⟩, -⟩ := hreplayed
  have hcolumn (c : ColumnRef) : u.matrix.column c = t₁.matrix.column c := by rw [heq]; rfl
  have hsize₁ : t₁.matrix.columns.size = lp.matrix.columns.size := hkept.nrColumns.trans h.nrColumns
  have hsize : u.matrix.columns.size = t₁.matrix.columns.size := by rw [heq]; rfl
  have hrow (r : RowRef) : u.matrix.row? r = (t.matrix.row? r).map fun row =>
      { row with spec := { row.spec with sides := row.spec.sides.replay r log.toList.reverse } } := by
    have hsame : t₁.matrix.row? r = t.matrix.row? r := by
      rw [ConstraintMatrix.row?, hkept.matrixRows, ConstraintMatrix.row?]
    rw [← hsame, heq]
    exact t₁.matrix.row?_withSides _ r
  refine ⟨⟨hsize.trans hsize₁, fun {c} hc => ?_, hquiet.unmoved.columns.trans h.columns,
    fun {r row} hr => ?_, ?_⟩, by rw [heq]; exact hkept.rows⟩
  · rw [hcolumn, (hreset (hc.trans_eq hsize₁.symm)).spec, hkept.origin c]
    exact congrArg (fun x => (problem.get x).spec) (h.origin hc)
  · obtain ⟨row₁, hrow₁, hconstant, hreplay⟩ := hsides hr
    refine ⟨_, by rw [hrow, hrow₁, Option.map_some], ?_⟩
    rw [hreplay]
    exact congrArg (RowSpec.mk row.spec.sides) hconstant
  · exact IsTrans.trans _ _ _ h.coefficients (ConstraintMatrix.completes_of_eq
      (ConstraintMatrix.amount_of_shape hquiet.shape) (ConstraintMatrix.linked_of_shape hquiet.shape))

/-- After the edits of a dive were undone, the active lines are those with which the dive was
started, and they say what they said. -/
theorem Diving.ends_undoEdits (h : Diving lp t) (ht : t.Coherent) {dive dive' : Dive σ}
    (hstart : lp.dive = some dive) (hnrRows : dive.nrRows = lp.rows.size)
    (hdive : t.dive = some dive') :
    Ends (undoEdits problem dive') { t with dive := none }
      (fun _ u => Rewound problem lp u ∧ u.rows = lp.rows) fun _ _ => True := by
  have hsize : dive'.nrRows = lp.rows.size := by
    obtain ⟨dive₀, _, hstart₀, hdive₀, -⟩ := h.dive
    obtain rfl := Option.some.inj (hstart₀.symm.trans hstart)
    obtain rfl := Option.some.inj (hdive₀.symm.trans hdive)
    exact hnrRows
  have hsurface : Quiet t { t with dive := none } := quiet_of_eq rfl rfl rfl rfl
  rw [undoEdits_eq, Ends.bind_iff]
  refine ((ends_resetColumns problem _).and (quiet_resetColumns problem _)).mono ?_
    fun _ _ _ => trivial
  rintro _ t₁ ⟨⟨hkept, hreset⟩, hquiet₁⟩
  rw [Ends.bind_iff]
  refine ((ends_replaySides hkept.dive _).and (quiet_replaySides _ t₁)).mono ?_
    fun _ _ _ => trivial
  rintro _ t₂ ⟨hreplayed, hquiet₂⟩
  have hquiet : Quiet t t₂ :=
    IsTrans.trans _ _ _ (IsTrans.trans _ _ _ hsurface hquiet₁) hquiet₂
  obtain ⟨hrewound, hrows⟩ := hreplayed.rewound h hdive hkept hreset hquiet
  obtain ⟨added, hsplit, hadded⟩ := h.rows
  rw [hsplit] at hrows
  -- only rows that were created during the dive are released
  have hrest : ∀ r ∈ t₂.rows.extract dive'.nrRows t₂.rows.size,
      r ∈ {r : RowRef | lp.matrix.rows.size ≤ r.index} := by
    rw [hrows, hsize, Array.extract_append]
    simpa using hadded
  have hgone : Disjoint lp.matrix.live {r : RowRef | lp.matrix.rows.size ≤ r.index} :=
    Set.disjoint_left.mpr fun r hr => Nat.not_le.mpr (ConstraintMatrix.index_lt_of_mem_live hr)
  have hshrink : Ends (shrinkRows dive'.nrRows) t₂
      (fun _ u => Steady Whatever (.moves {r | lp.matrix.rows.size ≤ r.index}) _ u) fun _ _ => _ :=
    ends_shrinkRows_steady hrest
  refine ((ends_shrinkRows (hquiet.carries ht).coherent dive'.nrRows).and hshrink).mono ?_
    fun _ _ _ => trivial
  rintro _ u ⟨hcarried, hsteady⟩
  refine ⟨hrewound.step hsteady.matrix.sameSpecs hgone hcarried.matrix.sheds hsteady.matrix.size
    hsteady.columns, hsteady.rows.trans ?_⟩
  rw [hrows, hsize, Array.extract_append]
  simp

/-- The solver is told too, and has the columns and rows that it had. -/
theorem Diving.ends_undoDive (h : Diving lp t) (ht : t.Tracked) {dive dive' : Dive σ}
    (hstart : lp.dive = some dive) (hnrRows : dive.nrRows = lp.rows.size)
    (hdive : t.dive = some dive') :
    Ends (undoDive problem dive') { t with dive := none }
      (fun _ u => Rewound problem lp u ∧ u.rows = lp.rows) fun _ _ => True := by
  rw [undoDive_eq, Ends.bind_iff]
  refine ((h.ends_undoEdits ht.coherent hstart hnrRows hdive).and
    (ht.surfaced.1.ends (tracks_undoEdits problem dive'))).mono ?_ fun _ _ _ => trivial
  rintro _ t₁ ⟨⟨hrewound, hrows⟩, htracked⟩
  rw [Ends.bind_iff]
  refine ((intact_sync t₁).and (along_sync t₁)).mono ?_ fun _ _ _ => trivial
  rintro _ t₂ ⟨hintact, hcarries⟩
  have hrewound₂ := hrewound.of_intact hintact (hcarries htracked.coherent).matrix
  refine (ends_onSolver_only _ t₂).mono ?_ fun _ _ _ => trivial
  rintro _ _ ⟨s, -, rfl⟩
  exact ⟨⟨hrewound₂.nrColumns, hrewound₂.column, hrewound₂.columns, hrewound₂.row,
    hrewound₂.coefficients⟩, hintact.rows.trans hrows⟩

/-! ## Starting -/

/-- A dive was started: the solver is up to date, and it is noted where to go back to. -/
structure Started (lp t : Relaxation σ) : Prop where
  intact : Intact lp { t with dive := lp.dive }
  sheds : lp.matrix.Sheds t.matrix
  synced : t.matrix.synced = true
  dive : ∃ snapshot flags stored, Solver.snapshot t.solver = .ok snapshot ∧ t.dive = some {
    snapshot, flags, stored
    nrRows := t.rows.size, iterationLimit := t.settings.iterationLimit, sideLog := #[] }

theorem Tracked.ends_startDive (h : lp.Tracked) (store : Bool) :
    Ends (startDive store) lp (fun _ t => Started lp t) fun _ _ => True := by
  rw [startDive, Ends.bind_iff, Ends.get_iff, Ends.ite_iff]
  refine ⟨fun _ => trivial, fun _ => ?_⟩
  rw [Ends.bind_iff]
  refine ((ends_sync h).and ((intact_sync lp).and (along_sync lp))).mono ?_ fun _ _ _ => trivial
  rintro _ t ⟨⟨htracked, hsynced⟩, hintact, hcarries⟩
  rw [Ends.bind_iff, ends_askSolver_iff]
  refine ⟨fun snapshot hsnapshot => ?_, fun _ _ => trivial⟩
  have hstarted {u : Relaxation σ} (hu : Unedited Eq t u) (flags : Flags) (stored : Bool) :
      Started lp { u with dive := some {
        snapshot, flags, stored
        nrRows := u.rows.size, iterationLimit := u.settings.iterationLimit, sideLog := #[] } } := by
    have hresized : Unedited Resized t u := { hu with solver := hu.solver ▸ refl t.solver }
    have hsheds := (hresized.quiet.carries htracked.coherent).matrix.sheds
    have hstays := IsTrans.trans _ _ _ hintact (Steady.intact hu.steady)
    exact {
      intact := { hstays with dive := rfl }
      sheds := IsTrans.trans _ _ _ (hcarries h.coherent).matrix hsheds
      synced := (congrArg ConstraintMatrix.synced hu.matrix).trans hsynced
      dive := ⟨snapshot, flags, stored, hu.solver ▸ hsnapshot, rfl⟩ }
  rw [Ends.bind_iff, Ends.get_iff, Ends.ite_iff]
  refine ⟨fun _ => ?_, fun _ => hstarted (refl t) _ _⟩
  rw [Ends.bind_iff]
  exact (unedited_storeSolution t).mono (fun _ u hu => hstarted hu _ _) fun _ _ _ => trivial

/-- The columns have the objective and the bounds of their variables. -/
def Original (problem : Problem) (lp : Relaxation σ) : Prop :=
  ∀ c, lp.matrix.Has (.column c) →
    (lp.matrix.column c).spec = (problem.get (lp.matrix.column c).origin).spec

/-- Every entry of an active line for another one has its counterpart. -/
def FullyLinked (lp : Relaxation σ) : Prop :=
  ∀ c ∈ lp.columns, ∀ r ∈ lp.rows, lp.matrix.Linked c r

theorem Started.original (h : Started lp t) (hlp : Original problem lp) : Original problem t :=
  fun c hc => by
    have hc' : lp.matrix.Has (.column c) := hc.trans_eq h.intact.nrColumns
    rw [h.intact.matrix.column hc', h.intact.matrix.origin hc', hlp c hc']

theorem Started.iterationLimit (h : Started lp t) :
    t.settings.iterationLimit = lp.settings.iterationLimit :=
  congrArg Settings.iterationLimit h.intact.settings

/-- Both lines of every active coefficient know all of it. -/
theorem Started.linked_eq_amount (h : Started lp t) (hlp : lp.Coherent) (hlinked : lp.FullyLinked) :
    ∀ c ∈ t.columns, ∀ r ∈ t.rows, t.matrix.linked c r = t.matrix.amount c r := fun c hc r hr => by
  obtain ⟨row, hrow, -⟩ := hlp.exists_row_of_mem (h.intact.rows ▸ hr)
  have hcompletes : Completes lp.matrix.live lp.matrix t.matrix :=
    h.sheds.completes h.intact.matrix.live_subset
  exact (hcompletes.linked_eq (ConstraintMatrix.mem_live hrow)
    (hlinked c (h.intact.columns ▸ hc) r (h.intact.rows ▸ hr)).linked_eq_amount).1

/-! ## Ending -/

/-- A relaxation after a dive, against the one before it: the sums of the objective and the
iteration limit are the same, the active lines are the same, and columns and rows say what they
said. -/
structure RolledBack (lp u : Relaxation σ) : Prop where
  surfaced : u.dive = none
  nrColumns : u.matrix.columns.size = lp.matrix.columns.size
  column : ∀ c, lp.matrix.Has (.column c) → (u.matrix.column c).spec = (lp.matrix.column c).spec
  row : ∀ r row, lp.matrix.row? r = some row →
    ∃ row', u.matrix.row? r = some row' ∧ row'.spec = row.spec
  columns : u.columns = lp.columns
  rows : u.rows = lp.rows
  pseudo : u.pseudo = lp.pseudo
  loose : u.loose = lp.loose
  iterationLimit : u.settings.iterationLimit = lp.settings.iterationLimit

/-- A dive that was started and ended: first it was undone, and then it was closed. -/
theorem Diving.exists_undone (h : Diving t u) {dive : Dive σ} (hdive : t.dive = some dive)
    (hend : (endDive problem).run.run u = (.ok (), v)) : ∃ log w,
      u.dive = some { dive with sideLog := log } ∧
      (undoDive problem { dive with sideLog := log }).run.run { u with dive := none } =
        (.ok (), w) ∧
      (closeDive { dive with sideLog := log }).run.run w = (.ok (), v) := by
  obtain ⟨_, log, hdive', hlog, -⟩ := h.dive
  obtain rfl := Option.some.inj (hdive'.symm.trans hdive)
  obtain ⟨w, hundo, hclose⟩ := Relaxation.exists_undone hlog hend
  exact ⟨log, w, hlog, hundo, hclose⟩

/-- Once the edits are undone, what is left to do brings back the iteration limit. -/
theorem Rewound.rolledBack (h : Rewound problem t u) (hrows : u.rows = t.rows)
    (hsurfaced : u.dive = none) (hstarted : Started lp t) (horiginal : Original problem lp)
    (hsums : lp.Aggregated) (hendSums : v.Aggregated) (hkept : Unedited Whatever
      { u with settings := { u.settings with iterationLimit := t.settings.iterationLimit } } v) :
    RolledBack lp v := by
  have hkeeps := Steady.intact hkept.steady
  have hnrColumns := (hkeeps.nrColumns.trans h.nrColumns).trans hstarted.intact.nrColumns
  have hcolumns := (hkeeps.columns.trans h.columns).trans hstarted.intact.columns
  have hcolumn (c : ColumnRef) (hc : lp.matrix.Has (.column c)) :
      (v.matrix.column c).spec = (lp.matrix.column c).spec := by
    have htc : c.index < t.matrix.columns.size := hc.trans_eq hstarted.intact.nrColumns.symm
    rw [hkeeps.matrix.column (htc.trans_eq h.nrColumns.symm), h.column htc,
      hstarted.intact.matrix.origin hc, horiginal c hc]
  obtain ⟨hpseudo, hloose⟩ := hsums.values_eq hendSums hnrColumns hcolumn hcolumns
  exact {
    surfaced := hkeeps.dive.trans hsurfaced
    nrColumns := hnrColumns
    column := hcolumn
    row := fun r row hrow => by
      obtain ⟨row₁, hrow₁, hspec₁⟩ := hstarted.intact.matrix.exists_row (Set.notMem_empty r) hrow
      obtain ⟨row₂, hrow₂, hspec₂⟩ := h.row hrow₁
      obtain ⟨row₃, hrow₃, hspec₃⟩ := hkeeps.matrix.exists_row (Set.notMem_empty r) hrow₂
      exact ⟨row₃, hrow₃, hspec₃.trans (hspec₂.trans hspec₁)⟩
    columns := hcolumns
    rows := (hkeeps.rows.trans hrows).trans hstarted.intact.rows
    pseudo := hpseudo
    loose := hloose
    iterationLimit := (congrArg Settings.iterationLimit hkeeps.settings).trans
      hstarted.iterationLimit }

/-! ## Runs with a dive -/

/-- A run with a dive. Before the dive, the columns have the objective and the bounds of their
variables, and active coefficients have both of their entries. During the dive, objective, bounds
and sides are changed, rows are created, filled and appended, and the solver is brought up to date
and run. The dive is started and ended with success. -/
structure Dived (problem : Problem) (history edits : List Action) (lp₀ lp t u : Relaxation σ) :
    Prop where
  created : ∃ solver settings, create solver settings = .ok lp₀
  permitted : Throughout Permits lp₀ history
  reached : lp₀.performAll history = lp
  original : Original problem lp
  linked : lp.FullyLinked
  start : ∃ store, (startDive store).run.run lp = (.ok (), t)
  permittedEdits : Throughout Permits t edits
  steps : ∀ a ∈ edits, a.isDiveStep t.matrix.rows.size = true
  ended : (endDive problem).run.run (t.performAll edits) = (.ok (), u)

namespace Dived

variable {lp₀ : Relaxation σ} {history edits : List Action}

theorem tracked (h : Dived problem history edits lp₀ lp t u) : lp.Tracked := by
  obtain ⟨_, _, hcreate⟩ := h.created
  rw [← h.reached]
  exact (tracked_create hcreate).performAll h.permitted

theorem summed (h : Dived problem history edits lp₀ lp t u) : lp.Summed := by
  obtain ⟨_, _, hcreate⟩ := h.created
  rw [← h.reached]
  exact (summed_create hcreate).performAll h.permitted

theorem started (h : Dived problem history edits lp₀ lp t u) : Started lp t := by
  obtain ⟨store, hstart⟩ := h.start
  exact (h.tracked.ends_startDive store).of_ok hstart

theorem tracked_start (h : Dived problem history edits lp₀ lp t u) : t.Tracked := by
  obtain ⟨store, hstart⟩ := h.start
  exact (h.tracked.ends (bears_tracks.startDive store)).of_ok hstart

theorem summed_end (h : Dived problem history edits lp₀ lp t u) : u.Aggregated := by
  obtain ⟨store, hstart⟩ := h.start
  have ht : t.Summed := ⟨h.tracked_start.coherent,
    ((sameColumns_startDive store lp).of_ok hstart).aggregated h.summed.sums⟩
  have hpermits : (t.performAll edits).Permits (.endDive problem) := fun c hc => nomatch hc
  exact ((ht.performAll h.permittedEdits).ends_perform hpermits).of_ok h.ended

theorem diving (h : Dived problem history edits lp₀ lp t u) : Diving t (t.performAll edits) := by
  obtain ⟨_, _, _, -, hdive⟩ := h.started.dive
  exact (diving_refl hdive rfl).performAll h.tracked_start.coherent h.permittedEdits h.steps

/-- All of the dive is undone, whatever the solver is. -/
theorem rolledBack (h : Dived problem history edits lp₀ lp t u) : RolledBack lp u := by
  obtain ⟨_, _, _, -, hdive⟩ := h.started.dive
  obtain ⟨log, w, hlog, hundo, hclose⟩ := h.diving.exists_undone hdive h.ended
  have hlast := h.tracked_start.performAll h.permittedEdits
  obtain ⟨hrewound, hrows⟩ := (h.diving.ends_undoDive hlast hdive rfl hlog).of_ok hundo
  have hsurfaced := ((ends_undoDive hlast.surfaced problem _).of_ok hundo).1.2
  exact hrewound.rolledBack hrows hsurfaced h.started h.original h.summed.sums h.summed_end
    ((ends_closeDive_unedited _ w).of_ok hclose)

end Dived

end Edits

/-! ## The dense solver -/

section Dense

variable {t u : Relaxation Simplex} {problem : Problem} {dive : Dive Simplex} {s : Simplex}

/-- At last the iteration limit is told. -/
theorem ends_undoDive_limit (problem : Problem) (dive : Dive Simplex) (lp : Relaxation Simplex) :
    Ends (undoDive problem dive) lp (fun _ t =>
      t.solver.intParameter .iterationLimit = iterationLimitCode dive.iterationLimit)
      fun _ _ => True := by
  rw [undoDive_eq, Ends.bind_iff]
  refine (Ends.self _ lp).mono (fun _ t _ => ?_) fun _ _ _ => trivial
  rw [Ends.bind_iff]
  refine (Ends.self _ t).mono (fun _ u _ => ?_) fun _ _ _ => trivial
  rw [ends_onSolver]
  exact (Simplex.ends_setIterationLimit dive.iterationLimit u.solver).mono (fun _ _ h => h)
    fun _ _ h => h.elim

/-- A solver that holds the same starts from where it was before the dive. -/
theorem ends_closeDive_dense (h : SameContents s t.solver) (hsnapshot : dive.snapshot = s.basis) :
    Ends (closeDive dive) t (fun _ u => u.solver = t.solver.withBasis s.basis)
      fun _ _ => True := by
  rw [closeDive, Ends.bind_iff, setIterationLimit, Ends.modify_iff, Ends.bind_iff, reviveSolver,
    Ends.tryCatch_iff, ends_onSolver, hsnapshot]
  refine (Simplex.ends_setBasis_of_sameContents h).mono ?_ fun _ _ h => h.elim
  rintro _ _ rfl
  exact (unedited_reviveSolution (S := Eq) dive _).mono
    (fun _ u hu => hu.solver.symm) fun _ _ _ => trivial

/-- Brought up to date before and after the edits were undone, the solver holds the same. -/
theorem Rewound.sameContents (h : Rewound problem t u) (hrows : u.rows = t.rows) (ht : t.Faithful)
    (htSynced : t.matrix.synced = true) (hu : u.Faithful) (huSynced : u.matrix.synced = true)
    (horiginal : Original problem t)
    (hlinked : ∀ c ∈ t.columns, ∀ r ∈ t.rows, t.matrix.linked c r = t.matrix.amount c r) :
    SameContents t.solver u.solver := by
  have hexists {r : RowRef} (hr : r ∈ t.rows) := ht.tracked.coherent.exists_row_of_mem hr
  refine (ht.upToDate htSynced).sameContents (hu.upToDate huSynced) ht.tracked.coherent h.columns
    hrows (fun c hc => ?_) (fun r hr => ?_) fun c hc r hr => ?_
  · have hhas := ht.tracked.coherent.has_of_mem hc
    rw [h.column hhas, horiginal c hhas]
  · obtain ⟨row, hrow, -⟩ := hexists hr
    obtain ⟨row', hrow', hspec⟩ := h.row hrow
    rw [hrow, hrow', Option.map_some, Option.map_some, hspec]
  · obtain ⟨row, hrow, -⟩ := hexists hr
    exact (h.coefficients.linked_eq (ConstraintMatrix.mem_live hrow) (hlinked c hc r hr)).2

/-- The solver after a dive, against the one right after its start: it has the same columns and
rows, with the same coefficients and statuses, and the iteration limit of the settings. -/
structure Reinstated (lp t u : Relaxation Simplex) : Prop where
  columns : u.solver.columns = t.solver.columns
  rows : u.solver.rows = t.solver.rows
  iterationLimit :
    u.solver.intParameter .iterationLimit = iterationLimitCode lp.settings.iterationLimit

/-- A dive is rolled back, however often objective, bounds and sides are changed during the dive,
and whatever else was done before it. On top of the dense solver, which has to refuse no value, the
solver is where it was when the dive was started. -/
theorem endDive_rolledBack :
    (∀ {σ : Type} [Solver σ] {problem : Problem} {history edits : List Action}
      {lp₀ lp t u : Relaxation σ}, Dived problem history edits lp₀ lp t u → RolledBack lp u) ∧
    ∀ {problem : Problem} {history edits : List Action} {lp₀ lp t u : Relaxation Simplex},
      Dived problem history edits lp₀ lp t u → Throughout Unrejected lp₀ history →
        Throughout Unrejected t edits → Reinstated lp t u := by
  refine ⟨fun h => h.rolledBack, fun {problem history edits lp₀ lp t u} h hhistory hedits => ?_⟩
  obtain ⟨_, _, hcreate⟩ := h.created
  obtain ⟨store, hstart⟩ := h.start
  have hlp : lp.Faithful := by
    rw [← h.reached]
    exact (faithful_create hcreate).performAll h.permitted hhistory
  have ht : t.Faithful := (honest_startDive store lp hlp).of_ok hstart
  have hlast := ht.performAll h.permittedEdits hedits
  -- the edits are undone, and the solver is told
  obtain ⟨snapshot, flags, stored, hsnapshot, hdive⟩ := h.started.dive
  obtain ⟨log, w, hlog, hundo, hclose⟩ := h.diving.exists_undone hdive h.ended
  obtain ⟨hrewound, hrows⟩ := (h.diving.ends_undoDive hlast.tracked hdive rfl hlog).of_ok hundo
  obtain ⟨-, hsynced⟩ := (ends_undoDive hlast.tracked.surfaced problem _).of_ok hundo
  have hw : w.Faithful := (honest_undoDive problem _ _ (hlast.withDive none)).of_ok hundo
  have hsame := hrewound.sameContents hrows ht h.started.synced hw hsynced
    (h.started.original h.original) (h.started.linked_eq_amount hlp.tracked.coherent h.linked)
  have hlimit := (ends_undoDive_limit problem _ _).of_ok hundo
  -- it gets its basis back
  have hsolver := (ends_closeDive_dense hsame (Except.ok.inj hsnapshot).symm).of_ok hclose
  have hwarm := hsame.withBasis
  rw [← hsolver] at hwarm
  refine ⟨hwarm.1, hwarm.2, ?_⟩
  rw [hsolver, ← h.started.iterationLimit]
  exact hlimit

/-- Bounds, sides and the objective are changed, some more than once, and a row is added, before and
after the linear program is solved. -/
def divedActions : List Action := [
  .changeBound ⟨0⟩ .upper 2, .changeSide ⟨0⟩ .lower 2, .changeObjective ⟨0⟩ (-1), .sync,
  .createRow "s" ⟨⟨.negInf, 1⟩, 0⟩, .addCoefficientsInRow ⟨1⟩ [(⟨0⟩, 1)], .addRow ⟨1⟩,
  .changeSide ⟨0⟩ .lower 0, .solve .empty, .changeBound ⟨0⟩ .upper 3, .setIterationLimit (some 7)]

/-- The solver has another row at the end of the dive, and has it no more when the dive has ended. -/
theorem endDive_rolledBack_small :
    let lp := fresh.performAll solvingActions
    let t := lp.after (startDive true)
    let u := (t.performAll divedActions).after (endDive smallProblem)
    t.solver.nrRows = 1 ∧ (t.performAll divedActions).solver.nrRows = 2 ∧ RolledBack lp u ∧
      Reinstated lp t u := by
  intro lp t u
  have hsize : lp.matrix.columns.size = 1 := by decide +kernel
  have hspec : (lp.matrix.column ⟨0⟩).spec =
      (smallProblem.get (lp.matrix.column ⟨0⟩).origin).spec := by decide +kernel
  have horiginal : Original smallProblem lp := fun c hc => by
    obtain rfl : c = ⟨0⟩ := by
      have hlt : c.index < 1 := hsize ▸ hc
      cases c
      simpa using hlt
    exact hspec
  have hlinked : lp.FullyLinked := by
    unfold FullyLinked
    decide +kernel
  have hdived : Dived smallProblem solvingActions divedActions fresh lp t u := {
    created := ⟨_, _, create_fresh⟩
    permitted := by decide +kernel
    reached := rfl
    original := horiginal
    linked := hlinked
    start := ⟨true, run_of_accepts (by decide +kernel)⟩
    permittedEdits := by decide +kernel
    steps := by decide +kernel
    ended := run_of_accepts (by decide +kernel) }
  exact ⟨by decide +kernel, by decide +kernel, endDive_rolledBack.1 hdived,
    endDive_rolledBack.2 hdived (by decide +kernel) (by decide +kernel)⟩

end Dense

end Relaxation

end CertifiedLp
