import Mathlib
import CertifiedLp.Proofs.Matrix.Editing
import CertifiedLp.Proofs.Relaxation.Quiet

/-!
# Edits of a relaxation

A relaxation *records* a ledger if it is coherent and has the coefficients of the ledger. An edit
moves no line, and what it makes of the coefficients is what the ledger after it says. Several values
that are given to a row at once are edits one after the other, up to the first that is refused.
-/

namespace CertifiedLp

namespace Relaxation

open ConstraintMatrix (Sheds Undisturbed)

variable {σ : Type} [Solver σ] {lp t u : Relaxation σ} {c : ColumnRef} {r : RowRef} {row : Row}
variable {α : Type} {x : RelaxationM σ α} {L : Ledger} {e : Edit}

/-! ## Outcomes -/

/-- The relaxation after an operation, whether that succeeded or not. -/
def after (lp : Relaxation σ) (x : RelaxationM σ α) : Relaxation σ := (x.run.run lp).2

/-- Whether an operation succeeds. -/
def accepts (lp : Relaxation σ) (x : RelaxationM σ α) : Bool := (x.run.run lp).1.isOk

theorem run_of_accepts {x : RelaxationM σ Unit} (h : lp.accepts x = true) :
    x.run.run lp = (.ok (), lp.after x) := by
  rw [accepts] at h
  rw [after]
  cases hx : (x.run.run lp).1 with
  | ok _ => exact Prod.ext hx rfl
  | error e =>
    rw [hx] at h
    cases h

theorem exists_error_of_refuses {x : RelaxationM σ Unit} (h : lp.accepts x = false) :
    ∃ e, x.run.run lp = (.error e, lp.after x) := by
  rw [accepts] at h
  rw [after]
  cases hx : (x.run.run lp).1 with
  | ok _ =>
    rw [hx] at h
    cases h
  | error e => exact ⟨e, Prod.ext hx rfl⟩

theorem outcome_of_ends {P : Bool → Relaxation σ → Prop}
    (h : Ends x lp (fun _ t => P true t) fun _ t => P false t) : P (lp.accepts x) (lp.after x) := by
  rw [accepts, after]
  rw [Ends] at h
  split at h <;> (next heq => rw [heq]; exact h)

theorem ends_of_outcome {P : Bool → Relaxation σ → Prop} (h : P (lp.accepts x) (lp.after x)) :
    Ends x lp (fun _ t => P true t) fun _ t => P false t := by
  rw [accepts, after] at h
  rw [Ends]
  split <;> (next heq => rw [heq] at h; exact h)

/-! ## Single edits -/

/-- Edit a coefficient. -/
def edit (c : ColumnRef) (r : RowRef) : Edit → RelaxationM σ Unit
  | .addInColumn v => addCoefficientInColumn c r v
  | .addInRow v => addCoefficientInRow r c v
  | .change v => changeCoefficient c r v
  | .increase v => increaseCoefficient r c v
  | .delete => deleteCoefficient c r

theorem edit_eq (c : ColumnRef) (r : RowRef) (e : Edit) :
    (edit c r e : RelaxationM σ Unit) =
      (do onMatrix (ConstraintMatrix.edit c r e); coefficientEdited c r) := by
  cases e <;> rfl

/-- Nothing can fail any more after an edit. -/
theorem ends_coefficientEdited (hrow : lp.matrix.row? r = some row) :
    Ends (coefficientEdited c r) lp (fun _ t => Quiet lp t ∧ t.matrix = lp.matrix)
      fun _ _ => False := by
  have hends : Ends (coefficientEdited c r) lp (fun _ t => t.matrix = lp.matrix)
      fun _ _ => False := by
    rw [coefficientEdited, Ends.bind_iff, ends_getColumn, Ends.ite_iff]
    refine ⟨fun _ => ?_, fun _ => rfl⟩
    rw [Ends.bind_iff, ends_getRow hrow, Ends.ite_iff]
    exact ⟨fun _ => rfl, fun _ => rfl⟩
  exact ((quiet_coefficientEdited c r lp).and hends).mono (fun _ _ h => h) fun _ _ h => h.2

/-- What an edit does to a relaxation in which the row exists. -/
structure Edited (lp t : Relaxation σ) (row : Row) (c : ColumnRef) (r : RowRef) (e : Edit)
    (accepted : Bool) : Prop where
  unmoved : Unmoved lp t
  matrix : lp.matrix.Edited t.matrix row c r e accepted

theorem Edited.coherent {accepted : Bool} (h : Edited lp t row c r e accepted)
    (hlp : lp.Coherent) : t.Coherent := h.unmoved.coherent hlp h.matrix.sound

theorem Coherent.ends_edit (hlp : lp.Coherent) (hc : lp.matrix.Has (.column c))
    (hrow : lp.matrix.row? r = some row) (e : Edit) :
    Ends (edit c r e) lp (fun _ t => Edited lp t row c r e true)
      fun _ t => Edited lp t row c r e false := by
  rw [edit_eq, Ends.bind_iff, ends_onMatrix]
  refine (ConstraintMatrix.ends_edit hlp.sound hc hrow e).mono (fun _ m hm => ?_)
    fun _ m hm => ⟨⟨hm.stays, rfl, rfl, fun _ => refl _⟩, hm⟩
  obtain ⟨row', hrow'⟩ := hm.stays.exists_row hrow
  refine (ends_coefficientEdited hrow').mono (fun _ t ht => ?_) fun _ _ h => h.elim
  have hedited : Unmoved lp { lp with matrix := m } := ⟨hm.stays, rfl, rfl, fun _ => refl _⟩
  exact ⟨IsTrans.trans _ _ _ hedited ht.1.unmoved, by rw [ht.2]; exact hm⟩

/-- Whether an edit is accepted is up to the matrix. -/
theorem Coherent.accepts_edit_iff {p : Prop} (hlp : lp.Coherent) (hc : lp.matrix.Has (.column c))
    (hrow : lp.matrix.row? r = some row)
    (h : Ends (ConstraintMatrix.edit c r e) lp.matrix (fun _ _ => p) fun _ _ => ¬ p) :
    lp.accepts (edit c r e) = true ↔ p := by
  refine outcome_of_ends (P := fun accepted _ => accepted = true ↔ p) ?_
  rw [edit_eq, Ends.bind_iff, ends_onMatrix]
  refine ((ConstraintMatrix.ends_edit hlp.sound hc hrow e).and h).mono (fun _ m hm => ?_)
    fun _ _ hm => by simp [hm.2]
  obtain ⟨row', hrow'⟩ := hm.1.stays.exists_row hrow
  exact (ends_coefficientEdited hrow').mono (fun _ _ _ => by simp [hm.2]) fun _ _ h => h.elim

theorem ends_edit_missing (h : lp.matrix.row? r = none) (c : ColumnRef) (e : Edit) :
    Ends (edit c r e) lp (fun _ _ => False) fun _ t => t = lp := by
  rw [edit_eq, Ends.bind_iff, ends_onMatrix]
  exact (ConstraintMatrix.ends_edit_missing h c e).mono (fun _ _ h => h.elim)
    fun _ m hm => by rw [hm]

/-! ## Ledgers of a relaxation -/

/-- A relaxation is coherent, and has the coefficients of a ledger. -/
structure Records (lp : Relaxation σ) (L : Ledger) : Prop where
  coherent : lp.Coherent
  amount : lp.matrix.amount = L

theorem Carried.records (h : Carried Sheds lp t) (hunmoved : Unmoved lp t) (hlp : lp.Records L) :
    t.Records L := by
  refine ⟨h.coherent, ?_⟩
  rw [← hlp.amount]
  funext c r
  cases hrow : t.matrix.row? r with
  | some row => exact h.matrix.amount (by rw [hrow]; rfl)
  | none =>
    have hgone : lp.matrix.row? r = none := by
      rw [← Option.not_isSome_iff_eq_none, ← hunmoved.stays.isSome_row? r, hrow]
      exact Bool.false_ne_true
    rw [h.coherent.sound.amount_eq_zero hrow, hlp.coherent.sound.amount_eq_zero hgone]

end Relaxation

namespace Ledger

open Relaxation

variable {σ : Type} [Solver σ]

/-- The ledger after an edit. Whether a value for a row that delays its order is accepted, is up to
the relaxation. -/
def afterEdit (L : Ledger) (lp : Relaxation σ) (c : ColumnRef) (r : RowRef) (e : Edit) : Ledger :=
  match lp.matrix.row? r with
  | none => L
  | some row => L.after row (lp.accepts (edit c r e)) c r e

/-- The ledger after several values were given to a row. -/
def afterAll (L : Ledger) (r : RowRef) : List (ColumnRef × Extended) → Relaxation σ → Ledger
  | [], _ => L
  | (c, v) :: rest, lp =>
    let L := L.afterEdit lp c r (.addInRow v)
    if lp.accepts (edit c r (.addInRow v)) then
      L.afterAll r rest (lp.after (edit c r (.addInRow v)))
    else L

/-- The ledger after several values were given to a row at once, which delays its order meanwhile if
that is possible. -/
def afterBatch (L : Ledger) (lp : Relaxation σ) (r : RowRef)
    (coefficients : List (ColumnRef × Extended)) : Ledger :=
  match lp.matrix.row? r with
  | none => L
  | some row =>
    let together := !row.delayed && !row.isActive && row.isUnlinked
    L.afterAll r coefficients (if together then lp.after (delayOrder r) else lp)

end Ledger

namespace Relaxation

open ConstraintMatrix (Sheds Undisturbed)

variable {σ : Type} [Solver σ] {lp t u : Relaxation σ} {c : ColumnRef} {r : RowRef} {row : Row}
variable {α : Type} {x : RelaxationM σ α} {L : Ledger} {e : Edit}

/-- What an edit makes of the coefficients, unless it removes one from a row that delays its
order. -/
theorem Records.ends_edit (h : lp.Records L) (hc : lp.matrix.Has (.column c))
    (hkeeps : ∀ row, lp.matrix.row? r = some row → row.delayed = true → e ≠ .delete) :
    Ends (edit c r e) lp (fun _ t => Unmoved lp t ∧ t.Records (L.afterEdit lp c r e))
      fun _ t => Unmoved lp t ∧ t.Records (L.afterEdit lp c r e) := by
  refine ends_of_outcome (P := fun _ t => Unmoved lp t ∧ t.Records (L.afterEdit lp c r e)) ?_
  cases hrow : lp.matrix.row? r with
  | none =>
    have hends : Ends (edit c r e) lp (fun _ t => t = lp) fun _ t => t = lp :=
      (ends_edit_missing hrow c e).mono (fun _ _ h => h.elim) fun _ _ h => h
    have hafter : lp.after (edit c r e) = lp := hends.state
    rw [hafter, Ledger.afterEdit, hrow]
    exact ⟨refl lp, h⟩
  | some row =>
    have hedited := outcome_of_ends
      (P := fun accepted t => Edited lp t row c r e accepted) (h.coherent.ends_edit hc hrow e)
    refine ⟨hedited.unmoved, hedited.coherent h.coherent, ?_⟩
    rw [hedited.matrix.amount (hkeeps row hrow), h.amount, Ledger.afterEdit, hrow]

/-! ## Order -/

theorem Coherent.ends_delayOrder (hlp : lp.Coherent) (r : RowRef) :
    Ends (delayOrder r) lp (fun _ t => Unmoved lp t ∧ Carried Undisturbed lp t)
      fun _ t => Unmoved lp t ∧ Carried Undisturbed lp t := by
  rw [delayOrder, ends_onMatrix]
  cases hrow : lp.matrix.row? r with
  | none =>
    rw [ConstraintMatrix.ends_delayOrder_missing hrow]
    exact ⟨refl lp, hlp.carried⟩
  | some row =>
    refine (ConstraintMatrix.ends_delayOrder hlp.sound hrow).mono (fun _ m hm => ?_)
      fun _ m hm => by rw [hm]; exact ⟨refl lp, hlp.carried⟩
    have hunmoved : Unmoved lp { lp with matrix := m } := ⟨hm.stays, rfl, rfl, fun _ => refl _⟩
    exact ⟨hunmoved, hunmoved.carries hm hlp⟩

theorem Coherent.ends_forceOrder (hlp : lp.Coherent) (r : RowRef) :
    Ends (forceOrder r) lp (fun _ t => Unmoved lp t ∧ Carried Undisturbed lp t)
      fun _ t => Unmoved lp t ∧ Carried Undisturbed lp t := by
  rw [forceOrder, ends_onMatrix]
  cases hrow : lp.matrix.row? r with
  | none =>
    rw [ConstraintMatrix.ends_forceOrder_missing hrow]
    exact ⟨refl lp, hlp.carried⟩
  | some row =>
    refine (ConstraintMatrix.ends_forceOrder hlp.sound hrow).mono (fun _ m hm => ?_)
      fun _ m hm => by rw [hm]; exact ⟨refl lp, hlp.carried⟩
    have hunmoved : Unmoved lp { lp with matrix := m } :=
      ⟨hm.1.stays, rfl, rfl, fun _ => refl _⟩
    exact ⟨hunmoved, hunmoved.carries hm.1 hlp⟩

/-! ## Several values -/

theorem Unmoved.has_column (h : Unmoved lp t) (hc : lp.matrix.Has (.column c)) :
    t.matrix.Has (.column c) := by
  rw [ConstraintMatrix.Has, h.stays.size_columns]
  exact hc

/-- Values are given to a row one after the other. -/
theorem Records.ends_all (h : lp.Records L) {coefficients : List (ColumnRef × Extended)}
    (hc : ∀ x ∈ coefficients, lp.matrix.Has (.column x.1)) :
    Ends (forIn coefficients PUnit.unit fun x _ => do
        addCoefficientInRow r x.1 x.2
        pure (ForInStep.yield PUnit.unit) : RelaxationM σ PUnit) lp
      (fun _ t => Unmoved lp t ∧ t.Records (L.afterAll r coefficients lp))
      fun _ t => Unmoved lp t ∧ t.Records (L.afterAll r coefficients lp) := by
  induction coefficients generalizing lp L with
  | nil => exact ⟨refl lp, h⟩
  | cons x rest ih =>
    obtain ⟨c, v⟩ := x
    have hstep := h.ends_edit (r := r) (e := .addInRow v) (hc _ List.mem_cons_self)
      fun _ _ _ => by simp
    rw [List.forIn_cons, Ends.bind_iff, Ends.bind_iff]
    refine (hstep.and (Ends.self _ lp)).mono (fun _ t ht => ?_) fun _ t ht => ?_
    · obtain ⟨⟨hunmoved, hrecords⟩, hrun⟩ := ht
      have hrest := ih hrecords fun y hy => hunmoved.has_column (hc y (List.mem_cons_of_mem _ hy))
      rw [Ledger.afterAll, accepts, after, hrun]
      exact hrest.mono (fun _ _ hu => ⟨IsTrans.trans _ _ _ hunmoved hu.1, hu.2⟩)
        fun _ _ hu => ⟨IsTrans.trans _ _ _ hunmoved hu.1, hu.2⟩
    · obtain ⟨⟨hunmoved, hrecords⟩, hrun⟩ := ht
      rw [Ledger.afterAll, accepts, hrun]
      exact ⟨hunmoved, hrecords⟩

/-- A row that is not active and without links can delay its order. -/
theorem ends_delayOrder_of_inactive (hrow : lp.matrix.row? r = some row)
    (htogether : (!row.delayed && !row.isActive && row.isUnlinked) = true) :
    Ends (delayOrder r) lp (fun _ _ => True) fun _ _ => False := by
  have hallowed : ¬ (row.isActive || !row.isUnlinked) = true := by
    simp only [Bool.and_eq_true, Bool.not_eq_true'] at htogether
    simp [htogether.1.2, htogether.2]
  rw [delayOrder, ends_onMatrix, ConstraintMatrix.delayOrder, Ends.bind_iff,
    ConstraintMatrix.ends_getRow hrow, if_neg hallowed, ConstraintMatrix.ends_updateRow hrow]
  trivial

theorem Records.ends_addCoefficientsInRow (h : lp.Records L)
    {coefficients : List (ColumnRef × Extended)}
    (hc : ∀ x ∈ coefficients, lp.matrix.Has (.column x.1)) :
    Ends (addCoefficientsInRow r coefficients) lp
      (fun _ t => Unmoved lp t ∧ t.Records (L.afterBatch lp r coefficients))
      fun _ t => Unmoved lp t ∧ t.Records (L.afterBatch lp r coefficients) := by
  rw [addCoefficientsInRow, Ends.bind_iff, ends_getRow_iff]
  refine ⟨fun row hrow => ?_, fun hnone => ⟨refl lp, by rwa [Ledger.afterBatch, hnone]⟩⟩
  rw [Ledger.afterBatch, hrow]
  simp only
  have hforce {t : Relaxation σ} {L : Ledger} (ht : Unmoved lp t ∧ t.Records L) :
      Ends (forceOrder r) t (fun _ u => Unmoved lp u ∧ u.Records L)
        fun _ u => Unmoved lp u ∧ u.Records L :=
    (ht.2.coherent.ends_forceOrder r).mono
      (fun _ _ hu => ⟨IsTrans.trans _ _ _ ht.1 hu.1, hu.2.sheds.records hu.1 ht.2⟩)
      fun _ _ hu => ⟨IsTrans.trans _ _ _ ht.1 hu.1, hu.2.sheds.records hu.1 ht.2⟩
  rw [Ends.ite_iff]
  refine ⟨fun htogether => ?_, fun hseparate => ?_⟩
  · simp only [if_pos htogether]
    rw [Ends.bind_iff]
    have hdelay := ((h.coherent.ends_delayOrder r).and
      (ends_delayOrder_of_inactive hrow htogether)).and (Ends.self _ lp)
    refine hdelay.mono (fun _ t ht => ?_) fun _ t ht => ht.1.2.elim
    obtain ⟨⟨⟨hunmoved, hcarried⟩, -⟩, hrun⟩ := ht
    rw [after, hrun, Ends.bind_iff]
    refine ((hcarried.sheds.records hunmoved h).ends_all fun x hx =>
      hunmoved.has_column (hc x hx)).mono (fun _ u hu => ?_) fun _ u hu => ?_
    · exact hforce ⟨IsTrans.trans _ _ _ hunmoved hu.1, hu.2⟩
    · exact ⟨IsTrans.trans _ _ _ hunmoved hu.1, hu.2⟩
  · simp only [if_neg hseparate]
    rw [Ends.bind_iff]
    exact (h.ends_all hc).mono_ok fun _ u hu => hu

end Relaxation

end CertifiedLp
