import Mathlib
import CertifiedLp.Proofs.Relaxation.Mirroring

/-!
# The ledger of a run

A ledger that is kept beside a run: it follows every edit, forgets the rows that were freed, and does
not know in which list a coefficient is, how these are sorted, or which lines are active. A relaxation
has the coefficients of that ledger, as long as nothing is removed from a row that delays its order.
-/

namespace CertifiedLp

namespace Ledger

open Relaxation

variable {σ : Type} [Solver σ]

/-- The ledger after an action. -/
def afterAction (L : Ledger) (lp : Relaxation σ) : Action → Ledger
  | .edit c r e => L.afterEdit lp c r e
  | .addCoefficientsInRow r coefficients => L.afterBatch lp r coefficients
  | _ => L

/-- The ledger without the values of rows that were freed. -/
def restrict (L : Ledger) (m : ConstraintMatrix) : Ledger := fun c r =>
  if (m.row? r).isSome then L c r else 0

/-- The ledger after a run. -/
def afterRun (L : Ledger) (lp : Relaxation σ) : List Action → Ledger
  | [] => L
  | a :: rest =>
    let lp' := lp.after (perform a)
    ((L.afterAction lp a).restrict lp'.matrix).afterRun lp' rest

end Ledger

namespace Relaxation

open ConstraintMatrix (Sheds)

variable {σ : Type} [Solver σ] {lp t : Relaxation σ} {c : ColumnRef} {r : RowRef} {row : Row}
variable {a : Action} {actions : List Action} {L : Ledger} {solver : σ} {settings : Settings}

/-- An action does not remove anything from a row that delays its order. -/
def Retains (lp : Relaxation σ) : Action → Prop
  | .edit _ r .delete => ∀ row ∈ lp.matrix.row? r, row.delayed = false
  | _ => True

instance (lp : Relaxation σ) (a : Action) : Decidable (lp.Retains a) := by
  unfold Retains
  split <;> infer_instance

/-- Rows that do not exist have no coefficients. -/
theorem Coherent.records_restrict (h : lp.Coherent)
    (hL : ∀ c r, (lp.matrix.row? r).isSome = true → lp.matrix.amount c r = L c r) :
    lp.Records (L.restrict lp.matrix) := by
  refine ⟨h, funext fun c => funext fun r => ?_⟩
  rw [Ledger.restrict]
  split
  · next hlive => exact hL c r hlive
  · next hgone => exact h.sound.amount_eq_zero (Option.not_isSome_iff_eq_none.mp hgone) c

theorem Records.restrict (h : lp.Records L) : lp.Records (L.restrict lp.matrix) :=
  h.coherent.records_restrict fun c r _ => congrFun (congrFun h.amount c) r

theorem Carried.records_restrict (h : Carried Sheds lp t) (hlp : lp.Records L) :
    t.Records (L.restrict t.matrix) :=
  h.coherent.records_restrict fun c r hlive =>
    (h.matrix.amount hlive).trans (congrFun (congrFun hlp.amount c) r)

/-- One action keeps the relaxation and the ledger together. -/
theorem Records.perform (h : lp.Records L) (ha : lp.Permits a) (hretains : lp.Retains a) :
    (lp.after (perform a)).Records
      ((L.afterAction lp a).restrict (lp.after (perform a)).matrix) := by
  cases a with
  | createRow name spec =>
    refine Records.restrict ?_
    refine Ends.state (I := (Records · L)) (Ends.bind_iff.mpr ?_)
    exact (ends_createRow h.coherent name spec).mono (fun _ _ ht => ⟨ht.1, ht.2.1.trans h.amount⟩)
      fun _ _ ht => ht ▸ h
  | edit c r e =>
    have hkeeps (row : Row) (hrow : lp.matrix.row? r = some row) (hdelayed : row.delayed = true) :
        e ≠ .delete := by
      rintro rfl
      exact nomatch hdelayed.symm.trans (hretains row hrow)
    have hedit := h.ends_edit (ha c List.mem_cons_self) hkeeps
    exact (hedit.mono (fun _ _ ht => ht.2) fun _ _ ht => ht.2).state.restrict
  | addCoefficientsInRow r coefficients =>
    have hbatch := h.ends_addCoefficientsInRow (r := r) fun x hx =>
      ha x.1 (List.mem_map_of_mem hx)
    exact hbatch.state.2.restrict
  | _ =>
    exact (h.coherent.ends_carried ha rfl (by simp)).state.records_restrict h

/-- A run keeps the relaxation and the ledger together. -/
theorem Records.performAll (h : lp.Records L)
    (hactions : Throughout Permits lp actions) (hretains : Throughout Retains lp actions) :
    (lp.performAll actions).Records (L.afterRun lp actions) := by
  induction actions generalizing lp L with
  | nil => exact h
  | cons a rest ih =>
    exact ih (h.perform hactions.1 hretains.1) hactions.2 hretains.2

/-- Which values a row that delays its order accepts: those that can be stored, as long as the column has
none for the row. It does not matter which values the row itself has for the column. Meanwhile nothing
is overwritten, and nothing is stored in the column. -/
theorem Coherent.accepts_delayed (hlp : lp.Coherent) (hc : lp.matrix.Has (.column c))
    (hrow : lp.matrix.row? r = some row) (hdelayed : row.delayed = true) (v : Extended) :
    (lp.accepts (edit c r (.addInRow v)) = true ↔
        row.isLocked = false ∧ lp.matrix.Appendable c r v) ∧
      (lp.accepts (edit c r (.increase v)) = true ↔
        row.isLocked = false ∧ lp.matrix.Appendable c r v) ∧
      (lp.accepts (edit c r (.addInColumn v)) = true ↔ row.isLocked = false ∧ v = 0) ∧
      lp.accepts (edit c r (.change v)) = false := by
  refine ⟨?_, ?_, ?_, ?_⟩
  · exact hlp.accepts_edit_iff hc hrow
      (ConstraintMatrix.ends_addInRow_delayed hlp.sound hc hrow hdelayed)
  · exact hlp.accepts_edit_iff hc hrow
      (ConstraintMatrix.ends_increase_delayed hlp.sound hc hrow hdelayed)
  · exact hlp.accepts_edit_iff hc hrow (ConstraintMatrix.ends_addInColumn_delayed hrow hdelayed)
  · have hchange : lp.accepts (edit c r (.change v)) = true ↔ False := by
      refine hlp.accepts_edit_iff hc hrow ?_
      exact (ConstraintMatrix.ends_change_delayed hrow hdelayed).mono (fun _ _ h => h) fun _ _ _ h => h
    simpa using hchange

/-- After any run, the coefficient of a column in a row in order is read without an error, and is the
one in the ledger; and an edit of it is accepted exactly when the ledger accepts it. -/
theorem performAll_coefficient (hcreate : create solver settings = .ok lp)
    (hactions : Throughout Permits lp actions) (hretains : Throughout Retains lp actions)
    (hc : (lp.performAll actions).matrix.Has (.column c))
    (hrow : (lp.performAll actions).matrix.row? r = some row) (hordered : row.delayed = false) :
    let L := Ledger.afterRun (fun _ _ => 0) lp actions
    ((coefficient c r).run.run (lp.performAll actions)).1 = .ok (.finite (L c r)) ∧
      ∀ e, (lp.performAll actions).accepts (edit c r e) =
        (L.edit? row.isLocked c r e).isSome := by
  intro L
  have hrecords : (lp.performAll actions).Records L :=
    (records_create hcreate).performAll hactions hretains
  rw [← hrecords.amount]
  constructor
  · obtain ⟨value, t, hrun, -, rfl⟩ :=
      (hrecords.coherent.ends_coefficient_ordered hc hrow hordered).exists_ok
    rw [hrun]
  · intro e
    have hedited := outcome_of_ends
      (P := fun accepted t => Edited (lp.performAll actions) t row c r e accepted)
      (hrecords.coherent.ends_edit hc hrow e)
    exact (hedited.matrix.decision hordered).symm

/-- After all that, a row delays its order, gets two values for the column, and is put in order. Another
one gets two at once. -/
def mergingActions : List Action := smallActions ++ [
  .createRow "s" ⟨⟨.negInf, 8⟩, 0⟩, .delayOrder ⟨1⟩, .edit ⟨0⟩ ⟨1⟩ (.addInRow 2),
  .edit ⟨0⟩ ⟨1⟩ (.increase 3), .edit ⟨0⟩ ⟨1⟩ (.change 7), .forceOrder ⟨1⟩,
  .createRow "t" ⟨⟨0, 1⟩, 0⟩, .addCoefficientsInRow ⟨2⟩ [(⟨0⟩, 1), (⟨0⟩, 3)]]

theorem permits_merging : Throughout Permits small mergingActions := by decide +kernel

/-- The coefficient is what it was increased to, although the solver was not told of its row, and its
column is not active any more. No other value can be stored. In the rows that delay their order, the
values of the column are added up. -/
theorem performAll_coefficient_small :
    ((coefficient ⟨0⟩ ⟨0⟩).run.run (small.performAll smallActions)).1 = .ok (.finite 3) ∧
      (small.performAll smallActions).accepts (edit ⟨0⟩ ⟨0⟩ (.addInRow 7)) = false ∧
      ((coefficient ⟨0⟩ ⟨1⟩).run.run (small.performAll mergingActions)).1 = .ok (.finite 5) ∧
      ((coefficient ⟨0⟩ ⟨2⟩).run.run (small.performAll mergingActions)).1 = .ok (.finite 4) := by
  have hrows : ∀ actions ∈ [smallActions, mergingActions], ∀ i < 3,
      ∀ row ∈ (small.performAll actions).matrix.row? ⟨i⟩, row.delayed = false := by decide +kernel
  have hlive : ((small.performAll smallActions).matrix.row? ⟨0⟩).isSome = true ∧
      ∀ i < 3, ((small.performAll mergingActions).matrix.row? ⟨i⟩).isSome = true := by
    decide +kernel
  have hc : ∀ actions ∈ [smallActions, mergingActions],
      (0 : Nat) < (small.performAll actions).matrix.columns.size := by decide +kernel
  have hsmall : Ledger.afterRun (fun _ _ => 0) small smallActions ⟨0⟩ ⟨0⟩ = 3 := by decide +kernel
  have hmerged : Ledger.afterRun (fun _ _ => 0) small mergingActions ⟨0⟩ ⟨1⟩ = 5 ∧
      Ledger.afterRun (fun _ _ => 0) small mergingActions ⟨0⟩ ⟨2⟩ = 4 := by decide +kernel
  obtain ⟨row, hrow⟩ := Option.isSome_iff_exists.mp hlive.1
  obtain ⟨hread, haccepts⟩ := performAll_coefficient create_small permits_small (by decide +kernel)
    (c := ⟨0⟩) (hc _ (by simp)) hrow (hrows _ (by simp) 0 (by decide) row hrow)
  rw [hsmall] at hread
  have hnonzero : (7 : Extended).isZero = false := by decide
  refine ⟨hread, (haccepts _).trans (by simp [Ledger.edit?, Ledger.add?, hsmall, hnonzero]), ?_, ?_⟩
  · obtain ⟨row, hrow⟩ := Option.isSome_iff_exists.mp (hlive.2 1 (by decide))
    obtain ⟨hread, -⟩ := performAll_coefficient create_small permits_merging (by decide +kernel)
      (c := ⟨0⟩) (hc _ (by simp)) hrow (hrows _ (by simp) 1 (by decide) row hrow)
    rwa [hmerged.1] at hread
  · obtain ⟨row, hrow⟩ := Option.isSome_iff_exists.mp (hlive.2 2 (by decide))
    obtain ⟨hread, -⟩ := performAll_coefficient create_small permits_merging (by decide +kernel)
      (c := ⟨0⟩) (hc _ (by simp)) hrow (hrows _ (by simp) 2 (by decide) row hrow)
    rwa [hmerged.2] at hread

end Relaxation

end CertifiedLp
