import Mathlib
import CertifiedLp.Proofs.Relaxation.Frames
import CertifiedLp.Proofs.Relaxation.Recorded

/-!
# Obsolete solutions

A solution belongs to one active linear program. Whatever changes the active linear program, be it
its lines, what they say, or a coefficient between two of them, makes the last solution obsolete.
Everything else that can be done to a relaxation leaves the active linear program as it is.
-/

namespace CertifiedLp

/-- What a run leaves behind depends on its last step only. -/
theorem Ends.bind_of_forall {ε σ α β : Type} {x : ExceptT ε (StateM σ) α}
    {f : α → ExceptT ε (StateM σ) β} {s : σ} {Q : β → σ → Prop} {E : ε → σ → Prop}
    (hE : ∀ e t, E e t) (h : ∀ a t, Ends (f a) t Q E) : Ends (x >>= f) s Q E :=
  Ends.bind_iff.mpr ((Ends.self x s).mono (fun a t _ => h a t) fun e t _ => hE e t)

namespace Relaxation

open ConstraintMatrix (Sheds Undisturbed)

variable {σ : Type} [Solver σ] {lp t u : Relaxation σ} {c : ColumnRef} {r : RowRef} {row : Row}
variable {spec : ColumnSpec} {a : Action} {actions : List Action} {solver : σ} {settings : Settings}
variable {α : Type}

/-! ## The active linear program -/

/-- Two relaxations have the same active linear program: the same lines in the same order, which say
the same and have the same coefficients. -/
structure SameProgram (lp t : Relaxation σ) : Prop where
  columns : t.columns = lp.columns
  rows : t.rows = lp.rows
  columnSpec : ∀ c ∈ lp.columns, (t.matrix.column c).spec = (lp.matrix.column c).spec
  rowSpec : ∀ r ∈ lp.rows, (t.matrix.row? r).map (·.spec) = (lp.matrix.row? r).map (·.spec)
  coefficient : ∀ c ∈ lp.columns, ∀ r ∈ lp.rows,
    ((coefficient c r).run.run t).1 = ((coefficient c r).run.run lp).1

/-- The active linear program in terms of the amounts that the lists of coefficients add up to. -/
structure SameActive (lp t : Relaxation σ) : Prop where
  columns : t.columns = lp.columns
  rows : t.rows = lp.rows
  columnSpec : ∀ c ∈ lp.columns, (t.matrix.column c).spec = (lp.matrix.column c).spec
  rowSpec : ∀ r ∈ lp.rows, (t.matrix.row? r).map (·.spec) = (lp.matrix.row? r).map (·.spec)
  amount : ∀ c ∈ lp.columns, ∀ r ∈ lp.rows, t.matrix.amount c r = lp.matrix.amount c r

instance : IsPreorder (Relaxation σ) SameActive where
  refl _ := ⟨rfl, rfl, fun _ _ => rfl, fun _ _ => rfl, fun _ _ _ _ => rfl⟩
  trans _ _ _ h h' := {
    columns := h'.columns.trans h.columns
    rows := h'.rows.trans h.rows
    columnSpec := fun c hc =>
      (h'.columnSpec c (h.columns.symm ▸ hc)).trans (h.columnSpec c hc)
    rowSpec := fun r hr => (h'.rowSpec r (h.rows.symm ▸ hr)).trans (h.rowSpec r hr)
    amount := fun c hc r hr => (h'.amount c (h.columns.symm ▸ hc) r (h.rows.symm ▸ hr)).trans
      (h.amount c hc r hr) }

theorem Coherent.isActive_column_iff (hlp : lp.Coherent) (c : ColumnRef) :
    (lp.matrix.column c).isActive = true ↔ c ∈ lp.columns := by
  rw [Column.isActive, Option.isSome_iff_exists, Array.mem_iff_getElem?]
  exact exists_congr fun i => hlp.placed.columns c trivial i

theorem Coherent.has_of_mem (hlp : lp.Coherent) (hc : c ∈ lp.columns) :
    lp.matrix.Has (.column c) := by
  obtain ⟨i, hi⟩ := Array.mem_iff_getElem?.mp hc
  exact ConstraintMatrix.has_of_activeColumn ((hlp.placed.columns c trivial i).mpr hi)

/-- An active row exists, and it does not delay its order. -/
theorem Coherent.exists_row_of_mem (hlp : lp.Coherent) (hr : r ∈ lp.rows) :
    ∃ row, lp.matrix.row? r = some row ∧ row.isActive = true ∧ row.delayed = false := by
  have hactive : lp.matrix.grid.isActive (.row r) = true := by
    rw [ConstraintMatrix.isActive_row_places]
    exact hlp.placed.rows.isSome_of_mem trivial hr
  obtain ⟨place, hplace⟩ :=
    Option.isSome_iff_exists.mp (Places.isSome_row_of_mem hlp.placed.rows hr)
  obtain ⟨row, hrow, -⟩ := exists_row_of_places hplace
  exact ⟨row, hrow, (ConstraintMatrix.isActive_row hrow).symm.trans hactive,
    (ConstraintMatrix.inOrder_row hrow).mp (hlp.sound.tidy.inOrder hactive)⟩

/-- What is read between active lines is what the lists add up to. -/
theorem Coherent.coefficient_eq (hlp : lp.Coherent) (hc : c ∈ lp.columns) (hr : r ∈ lp.rows) :
    ((coefficient c r).run.run lp).1 = .ok (.finite (lp.matrix.amount c r)) := by
  obtain ⟨row, hrow, -, hordered⟩ := hlp.exists_row_of_mem hr
  obtain ⟨value, t, hrun, -, rfl⟩ :=
    (hlp.ends_coefficient_ordered (hlp.has_of_mem hc) hrow hordered).exists_ok
  rw [hrun]

theorem SameActive.sameProgram (h : SameActive lp t) (hlp : lp.Coherent) (ht : t.Coherent) :
    SameProgram lp t where
  columns := h.columns
  rows := h.rows
  columnSpec := h.columnSpec
  rowSpec := h.rowSpec
  coefficient c hc r hr := by
    rw [hlp.coefficient_eq hc hr, ht.coefficient_eq (h.columns.symm ▸ hc) (h.rows.symm ▸ hr),
      h.amount c hc r hr]

/-- Where lines say the same and have the same coefficients, the linear program is the same. -/
theorem SameLines.sameActive (h : SameLines lp t) (hlp : lp.Coherent) (ht : t.Coherent)
    (hamount : ∀ c ∈ lp.columns, ∀ r ∈ lp.rows, t.matrix.amount c r = lp.matrix.amount c r) :
    SameActive lp t := by
  refine ⟨h.columns, h.rows, fun c hc => h.matrix.column (hlp.has_of_mem hc), fun r hr => ?_,
    hamount⟩
  obtain ⟨row, hrow, -⟩ := hlp.exists_row_of_mem hr
  obtain ⟨row', hrow', -⟩ := ht.exists_row_of_mem (h.rows.symm ▸ hr)
  have hknown : r.index < lp.matrix.rows.size := by
    by_contra hle
    rw [ConstraintMatrix.row?_of_size_le (Nat.not_lt.mp hle)] at hrow
    cases hrow
  obtain ⟨row, hrow, hspec⟩ := h.matrix.row hknown hrow'
  rw [hrow', hrow, Option.map_some, Option.map_some, hspec]

theorem Carried.sameActive (h : Carried Sheds lp t) (hlines : SameLines lp t)
    (hlp : lp.Coherent) : SameActive lp t := by
  refine hlines.sameActive hlp h.coherent fun c _ r hr => ?_
  obtain ⟨row', hrow', -⟩ := h.coherent.exists_row_of_mem (hlines.rows.symm ▸ hr)
  exact h.matrix.amount (by rw [hrow']; rfl)

/-! ## Changes of objective, bounds, sides and constants -/

theorem Respecified.obsolete_or_same (h : Respecified c spec lp t) (hlp : lp.Coherent) :
    t.Obsolete ∨ SameActive lp t := by
  by_cases hnew : (lp.matrix.column c).spec ≠ spec ∧ (lp.matrix.column c).isActive = true
  · exact .inl (h.obsolete hnew.1 hnew.2)
  refine .inr ⟨h.columns, h.rows, fun d hd => ?_, fun r _ => ?_, fun d _ r _ => ?_⟩
  · obtain ⟨b, hmatrix⟩ := h.matrix
    rw [hmatrix]
    by_cases hdc : c = d
    · subst hdc
      have hsame : (lp.matrix.column c).spec = spec := by
        by_contra hne
        exact hnew ⟨hne, (hlp.isActive_column_iff c).mpr hd⟩
      have hcolumn := ConstraintMatrix.column_modifyColumn_self (hlp.has_of_mem hd)
        ({ · with spec })
      exact (congrArg Column.spec hcolumn).trans hsame.symm
    · exact congrArg Column.spec (ConstraintMatrix.column_modifyColumn_of_ne hdc _)
  · obtain ⟨b, hmatrix⟩ := h.matrix
    rw [hmatrix]
    rfl
  · rw [ConstraintMatrix.amount_of_shape h.quiet.shape]

theorem RowRespecified.obsolete_or_same {spec : RowSpec} (h : RowRespecified r row spec lp t)
    (hrow : lp.matrix.row? r = some row) (hlp : lp.Coherent) : t.Obsolete ∨ SameActive lp t := by
  by_cases hnew : row.spec ≠ spec ∧ row.isActive = true
  · exact .inl (h.obsolete hnew.1 hnew.2)
  obtain ⟨f, b, hmatrix, hf⟩ := h.matrix
  refine .inr ⟨h.columns, h.rows, fun d _ => by rw [hmatrix]; rfl, fun s hs => ?_, fun d _ s _ => ?_⟩
  · have hrow' : t.matrix.row? s = (lp.matrix.modifyRow r f).row? s := by
      rw [hmatrix]
      rfl
    rw [hrow', ConstraintMatrix.row?_modifyRow]
    split
    · next heq =>
      subst heq
      obtain ⟨row', hrow', hactive, -⟩ := hlp.exists_row_of_mem hs
      obtain rfl := Option.some.inj (hrow'.symm.trans hrow)
      have hsame : row'.spec = spec := by
        by_contra hne
        exact hnew ⟨hne, hactive⟩
      rw [hrow, Option.map_some, Option.map_some, Option.map_some, hf.spec, hsame]
    · rfl
  · rw [ConstraintMatrix.amount_of_shape h.quiet.shape]

/-! ## Lines that enter or leave -/

/-- Whenever an operation returns, the last solution is obsolete, and the solver is not up to
date. -/
def Outdates (x : RelaxationM σ α) : Prop :=
  ∀ lp, Ends x lp (fun _ t => t.Obsolete ∧ t.matrix.synced = false) fun _ _ => True

/-- Operations on the lists of active lines end like this. -/
theorem outdates_end : Outdates (do desync; markUnsolved : RelaxationM σ Unit) :=
  fun _ => ⟨⟨rfl, rfl⟩, rfl⟩

theorem Outdates.bind {β : Type} {x : RelaxationM σ β} {f : β → RelaxationM σ α}
    (h : ∀ b, Outdates (f b)) : Outdates (x >>= f) := fun _ =>
  .bind_of_forall (fun _ _ => trivial) fun b t => h b t

theorem Outdates.get {f : Relaxation σ → RelaxationM σ α} (h : ∀ lp, Outdates (f lp)) :
    Outdates (MonadState.get >>= f) := .bind h

/-- A refused operation does not return. -/
theorem Outdates.refuse {e : LpError} {β : Type} {f : β → RelaxationM σ α} {x : RelaxationM σ α}
    {p : Prop} [Decidable p] (h : Outdates x) : Outdates (if p then throw e >>= f else x) :=
  fun lp => by
    rw [Ends.ite_iff]
    exact ⟨fun _ => Ends.bind_iff.mpr trivial, fun _ => h lp⟩

theorem outdates_addColumn (c : ColumnRef) : Outdates (addColumn c : RelaxationM σ Unit) :=
  .bind fun _ => .refuse <| .get fun _ => .bind fun _ => .bind fun _ => fun _ => ⟨⟨rfl, rfl⟩, rfl⟩

theorem outdates_addRow (r : RowRef) : Outdates (addRow r : RelaxationM σ Unit) := by
  refine .bind fun _ => .bind fun _ => .refuse (.bind fun _ => .get fun _ => ?_)
  exact .bind fun _ => .bind fun _ => fun _ => ⟨⟨rfl, rfl⟩, rfl⟩

/-- An operation makes the last solution obsolete, or does nothing. -/
def OutdatesOrSkips (x : RelaxationM σ α) : Prop :=
  ∀ lp, Ends x lp (fun _ t => t.Obsolete ∧ t.matrix.synced = false ∨ t = lp) fun _ _ => True

theorem Outdates.orSkips {x : RelaxationM σ α} (h : Outdates x) : OutdatesOrSkips x := fun lp =>
  (h lp).mono_ok fun _ _ ht => .inl ht

/-- Of two operations that make the solution obsolete or do nothing, one that does something
suffices. -/
theorem OutdatesOrSkips.bind {β : Type} {x : RelaxationM σ β} {f : β → RelaxationM σ α}
    (hx : OutdatesOrSkips x) (hf : ∀ b, OutdatesOrSkips (f b)) : OutdatesOrSkips (x >>= f) := by
  intro lp
  rw [Ends.bind_iff]
  refine (hx lp).mono_ok fun b t ht => (hf b t).mono_ok fun _ u hu => ?_
  rcases hu with hu | rfl
  · exact .inl hu
  · exact ht

theorem outdates_shrinkColumns (size : Nat) :
    OutdatesOrSkips (shrinkColumns size : RelaxationM σ Unit) := fun lp => by
  rw [shrinkColumns, Ends.bind_iff, Ends.get_iff, Ends.ite_iff]
  refine ⟨fun _ => Outdates.orSkips ?_ lp, fun _ => .inr rfl⟩
  exact .bind fun _ => .bind fun _ => .bind fun _ => outdates_end

theorem outdates_shrinkRows (size : Nat) :
    OutdatesOrSkips (shrinkRows size : RelaxationM σ Unit) := fun lp => by
  rw [shrinkRows, Ends.bind_iff, Ends.get_iff, Ends.ite_iff]
  refine ⟨fun _ => Outdates.orSkips ?_ lp, fun _ => .inr rfl⟩
  exact .bind fun _ => .bind fun _ => .bind fun _ => outdates_end

theorem outdates_deleteRows (mask : Array Bool) :
    OutdatesOrSkips (deleteRows mask : RelaxationM σ Unit) := fun lp => by
  rw [deleteRows, Ends.bind_iff, Ends.get_iff, Ends.ite_iff]
  refine ⟨fun _ => trivial, fun _ => ?_⟩
  split
  · exact .inr rfl
  · refine Outdates.orSkips ?_ lp
    exact .bind fun _ => .bind fun _ => .bind fun _ => .bind fun _ => .bind fun _ => outdates_end

theorem outdates_clear : OutdatesOrSkips (clear : RelaxationM σ Unit) :=
  (outdates_shrinkColumns 0).bind fun _ => outdates_shrinkRows 0

/-! ## Coefficients -/

/-- What is known about the solution is the same. -/
def SameKnowledge (lp t : Relaxation σ) : Prop := t.flags = lp.flags ∧ t.status = lp.status

/-- Either the active linear program is the same, and a solution that was obsolete still is, or the
last solution is obsolete in any case. -/
def Guards (lp t : Relaxation σ) : Prop :=
  t.Obsolete ∨ SameActive lp t ∧ (lp.Obsolete → t.Obsolete)

instance : IsPreorder (Relaxation σ) Guards where
  refl lp := .inr ⟨refl lp, id⟩
  trans _ _ _ h h' := by
    rcases h' with h' | ⟨hsame', hkeeps'⟩
    · exact .inl h'
    rcases h with h | ⟨hsame, hkeeps⟩
    · exact .inl (hkeeps' h)
    · exact .inr ⟨IsTrans.trans _ _ _ hsame hsame', hkeeps' ∘ hkeeps⟩

/-- An operation on the matrix says nothing about the solution. -/
theorem ends_onMatrix_knowledge (x : MatrixM α) :
    Ends (onMatrix x : RelaxationM σ α) lp (fun _ t => SameKnowledge lp t)
      fun _ t => SameKnowledge lp t :=
  ends_onMatrix.mpr ((Ends.self x lp.matrix).mono (fun _ _ _ => ⟨rfl, rfl⟩) fun _ _ _ => ⟨rfl, rfl⟩)

theorem SameKnowledge.obsolete (h : SameKnowledge lp t) (hlp : lp.Obsolete) : t.Obsolete :=
  ⟨h.1 ▸ hlp.solved, h.2 ▸ hlp.status⟩

/-- Whether the solution is obsolete after an edit depends on whether both lines are active. -/
theorem ends_coefficientEdited_obsolete (hrow : lp.matrix.row? r = some row) :
    Ends (coefficientEdited c r) lp
      (fun _ t => t.Obsolete ∨
        t = lp ∧ ¬ ((lp.matrix.column c).isActive = true ∧ row.isActive = true))
      fun _ _ => True := by
  rw [coefficientEdited, Ends.bind_iff, ends_getColumn, Ends.ite_iff]
  refine ⟨fun _ => ?_, fun hinactive => .inr ⟨rfl, fun h => hinactive h.1⟩⟩
  rw [Ends.bind_iff, ends_getRow hrow, Ends.ite_iff]
  exact ⟨fun _ => .inl ⟨rfl, rfl⟩, fun hinactive => .inr ⟨rfl, fun h => hinactive h.2⟩⟩

/-- An edit makes the solution obsolete, unless one of the lines is not active. -/
theorem Coherent.ends_edit_obsolete (hlp : lp.Coherent) (hc : lp.matrix.Has (.column c))
    (hrow : lp.matrix.row? r = some row) (e : Edit) :
    Ends (edit c r e) lp
      (fun _ t => t.Obsolete ∨ SameKnowledge lp t ∧ ¬ (c ∈ lp.columns ∧ row.isActive = true))
      fun _ _ => True := by
  rw [edit_eq, Ends.bind_iff, ends_onMatrix]
  refine (ConstraintMatrix.ends_edit hlp.sound hc hrow e).mono (fun _ m hm => ?_)
    fun _ _ _ => trivial
  have hactive := hm.stays.column_congr Column.isActive c fun _ => rfl
  have hrows := hm.stays.row?_congr Row.isActive r fun _ => rfl
  rw [hrow, Option.map_some, Option.map_eq_some_iff] at hrows
  obtain ⟨row', hrow', hrowActive⟩ := hrows
  refine (ends_coefficientEdited_obsolete hrow').mono_ok fun _ t ht => ?_
  rcases ht with hobsolete | ⟨rfl, hinactive⟩
  · exact .inl hobsolete
  · rw [show ((_ : Relaxation σ).matrix.column c).isActive = _ from hactive, hrowActive,
      hlp.isActive_column_iff] at hinactive
    exact .inr ⟨⟨rfl, rfl⟩, hinactive⟩

/-- Between two active lines, an edit makes the solution obsolete; anywhere else it does not touch the
active linear program. -/
theorem Coherent.ends_edit_guards (hlp : lp.Coherent) (hc : lp.matrix.Has (.column c)) (r : RowRef)
    (e : Edit) :
    Ends (edit c r e) lp (fun _ t => t.Coherent ∧ Unmoved lp t ∧ Guards lp t)
      fun _ _ => True := by
  cases hrow : lp.matrix.row? r with
  | none => exact (ends_edit_missing hrow c e).mono (fun _ _ h => h.elim) fun _ _ _ => trivial
  | some row =>
    have hsteady := intact_of_steady (steady_edit (S := Whatever) c r e) lp
    refine (((hlp.ends_edit hc hrow e).and hsteady).and (hlp.ends_edit_obsolete hc hrow e)).mono
      (fun _ t ht => ?_) fun _ _ _ => trivial
    obtain ⟨⟨hedited, hintact⟩, houtcome⟩ := ht
    have ht := hedited.coherent hlp
    refine ⟨ht, hedited.unmoved, ?_⟩
    rcases houtcome with hobsolete | ⟨hknowledge, hinactive⟩
    · exact .inl hobsolete
    refine .inr ⟨hintact.sameLines.sameActive hlp ht fun d hd s hs => ?_, hknowledge.obsolete⟩
    refine (hedited.matrix.spares d s fun heq => hinactive ?_).1
    obtain ⟨rfl, rfl⟩ := heq
    obtain ⟨row', hrow', hactive, -⟩ := hlp.exists_row_of_mem hs
    exact ⟨hd, Option.some.inj (hrow'.symm.trans hrow) ▸ hactive⟩

/-- Merging a row, or delaying its order, touches no coefficient. -/
theorem guards_order {x : MatrixM Unit} (hlp : lp.Coherent)
    (hsteady : Along (Steady Whatever (.edits ∅)) (onMatrix x : RelaxationM σ Unit))
    (hends : Ends (onMatrix x) lp (fun _ t => Unmoved lp t ∧ Carried Undisturbed lp t)
      fun _ t => Unmoved lp t ∧ Carried Undisturbed lp t) :
    Ends (onMatrix x) lp (fun _ t => t.Coherent ∧ Unmoved lp t ∧ Guards lp t)
      fun _ _ => True := by
  refine ((hends.and (intact_of_steady hsteady lp)).and (ends_onMatrix_knowledge x)).mono
    (fun _ t ⟨⟨⟨hunmoved, hcarried⟩, hintact⟩, hknowledge⟩ => ?_) fun _ _ _ => trivial
  exact ⟨hcarried.coherent, hunmoved, .inr ⟨hcarried.sheds.sameActive hintact.sameLines hlp,
    hknowledge.obsolete⟩⟩

/-- Several values for a row are as harmless as a single one. -/
theorem Coherent.ends_addCoefficientsInRow_guards (hlp : lp.Coherent) (r : RowRef)
    {coefficients : List (ColumnRef × Extended)}
    (hc : ∀ x ∈ coefficients, lp.matrix.Has (.column x.1)) :
    Ends (addCoefficientsInRow r coefficients) lp (fun _ t => Guards lp t) fun _ _ => True := by
  have hkeep {x : RelaxationM σ Unit} {t : Relaxation σ}
      (ht : t.Coherent ∧ Unmoved lp t ∧ Guards lp t)
      (hx : Ends x t (fun _ u => u.Coherent ∧ Unmoved t u ∧ Guards t u) fun _ _ => True) :
      Ends x t (fun _ u => u.Coherent ∧ Unmoved lp u ∧ Guards lp u) fun _ _ => True :=
    hx.mono_ok fun _ u hu => ⟨hu.1, IsTrans.trans _ _ _ ht.2.1 hu.2.1,
      IsTrans.trans _ _ _ ht.2.2 hu.2.2⟩
  have hloop {t : Relaxation σ} (ht : t.Coherent ∧ Unmoved lp t ∧ Guards lp t) :
      Ends (forIn coefficients PUnit.unit fun x _ => do
          addCoefficientInRow r x.1 x.2
          pure (ForInStep.yield PUnit.unit) : RelaxationM σ PUnit) t
        (fun _ u => u.Coherent ∧ Unmoved lp u ∧ Guards lp u) fun _ _ => True := by
    refine Ends.forIn_keeps (fun u => u.Coherent ∧ Unmoved lp u ∧ Guards lp u) ht
      fun x hx u hu => ?_
    rw [Ends.bind_iff]
    exact (hkeep hu (hu.1.ends_edit_guards (hu.2.1.has_column (hc x hx)) r
      (.addInRow x.2))).mono_ok fun _ _ hu' => ⟨rfl, hu'⟩
  rw [addCoefficientsInRow, Ends.bind_iff, ends_getRow_iff]
  refine ⟨fun row _ => ?_, fun _ => trivial⟩
  have hstart : lp.Coherent ∧ Unmoved lp lp ∧ Guards lp lp := ⟨hlp, refl lp, refl lp⟩
  rw [Ends.ite_iff]
  refine ⟨fun htogether => ?_, fun hseparate => ?_⟩
  · simp only [if_pos htogether]
    rw [Ends.bind_iff]
    refine (guards_order hlp (steady_delayOrder r) (hlp.ends_delayOrder r)).mono_ok
      fun _ t ht => ?_
    rw [Ends.bind_iff]
    refine (hloop ht).mono_ok fun _ u hu => ?_
    exact (hkeep hu (guards_order hu.1 (steady_forceOrder r) (hu.1.ends_forceOrder r))).mono_ok
      fun _ _ h => h.2.2
  · simp only [if_neg hseparate]
    rw [Ends.bind_iff]
    exact (hloop hstart).mono_ok fun _ u hu => hu.2.2

/-! ## Operations that keep the active lines -/

theorem sameLines_of_intact {x : RelaxationM σ α} (h : Along Intact x) : Along SameLines x :=
  h.mono fun _ _ => Intact.sameLines

theorem sameLines_of_steady {x : RelaxationM σ α} (h : Along (Steady Whatever (.edits ∅)) x) :
    Along SameLines x := sameLines_of_intact (intact_of_steady h)

theorem sameLines_of_unedited {x : RelaxationM σ α} (h : Along (Unedited Whatever) x) :
    Along SameLines x := sameLines_of_intact (intact_of_unedited h)

/-- What leaves the matrix and the lists of active lines alone. -/
theorem sameLines_of_eq (hmatrix : t.matrix = lp.matrix) (hcolumns : t.columns = lp.columns)
    (hrows : t.rows = lp.rows) : SameLines lp t := ⟨hmatrix ▸ refl _, hcolumns, hrows⟩

theorem sameLines_setSettings (settings : Settings) :
    Along SameLines (setSettings settings : RelaxationM σ Unit) :=
  .bind (sameLines_of_intact (intact_onSolver _)) fun _ =>
    .bind (sameLines_of_intact (intact_onSolver _)) fun _ =>
      .modify fun _ => sameLines_of_eq rfl rfl rfl

theorem sameLines_createColumn (problem : Problem) (x : VariableRef) :
    Along SameLines (createColumn problem x : RelaxationM σ (Problem × ColumnRef)) := fun lp =>
  ends_createColumn_iff.mpr ⟨fun _ => refl lp, fun _ => ⟨fun _ => refl lp, fun _ =>
    ⟨sameSpecs_pushColumn lp.matrix _, rfl, rfl⟩⟩⟩

theorem sameLines_releaseRow (r : RowRef) :
    Along SameLines (releaseRow r : RelaxationM σ Unit) := by
  have hrelease : Along SameLines
      (updateRow r fun row => { row with nrUses := row.nrUses - 1 } : RelaxationM σ Unit) :=
    sameLines_of_intact (intact_updateRow r fun _ => rfl)
  have hfree : Along (ConstraintMatrix.Keeps (.moves Set.univ)) (ConstraintMatrix.freeRow r) :=
    ConstraintMatrix.along_freeRow (Set.mem_univ r)
  refine .bind (along_getRow r) fun row => ?_
  refine .ite .throw_bind <| .ite .throw_bind <| .bind hrelease fun _ => .ite (fun lp => ?_) .pure
  exact ends_onMatrix.mpr ((hfree lp.matrix).mono
    (fun _ _ h => ⟨h.sameSpecs, rfl, rfl⟩) fun _ _ h => ⟨h.sameSpecs, rfl, rfl⟩)

theorem sameLines_startDive (store : Bool) :
    Along SameLines (startDive store : RelaxationM σ Unit) := by
  have hrest (snapshot : Solver.Snapshot σ) (flags : Flags) (stored : Bool) :
      Along SameLines (modify fun lp : Relaxation σ => { lp with dive := some {
        snapshot, flags, stored
        nrRows := lp.rows.size, iterationLimit := lp.settings.iterationLimit, sideLog := #[] } } :
          RelaxationM σ Unit) := .modify fun _ => sameLines_of_eq rfl rfl rfl
  refine .get fun lp => .ite .throw_bind <| .bind (sameLines_of_intact intact_sync) fun _ => ?_
  refine .bind (along_askSolver _) fun snapshot => .get fun lp' => ?_
  exact .ite (.bind (sameLines_of_unedited unedited_storeSolution) fun _ => hrest _ _ _)
    (hrest _ _ _)

/-! ## All that can be done -/

/-- Every operation but the end of a dive leaves the active linear program as it is, or makes the
last solution obsolete. -/
theorem ends_obsolete_or_same (hlp : lp.Coherent) (ha : lp.Permits a)
    (hdive : ∀ problem, a ≠ .endDive problem) :
    Ends (perform a) lp (fun _ t => t.Obsolete ∨ SameActive lp t) fun _ _ => True := by
  have hlines (hedit : a.isEdit = false) (hcreate : ∀ name spec, a ≠ .createRow name spec)
      (hx : Along SameLines (perform a : RelaxationM σ Unit)) :
      Ends (perform a) lp (fun _ t => t.Obsolete ∨ SameActive lp t) fun _ _ => True :=
    ((hlp.ends_carried ha hedit hcreate).and (hx lp)).mono
      (fun _ _ h => .inr (h.1.sameActive h.2 hlp)) fun _ _ _ => trivial
  have houtdates {x : RelaxationM σ Unit} (hx : OutdatesOrSkips x) :
      Ends x lp (fun _ t => t.Obsolete ∨ SameActive lp t) fun _ _ => True :=
    (hx lp).mono_ok fun _ t ht => ht.imp And.left fun heq => by
      rw [heq]
      exact refl lp
  cases a with
  | setSettings settings => exact hlines rfl (by simp) (sameLines_setSettings settings)
  | setCutoff cutoff =>
    exact hlines rfl (by simp) (sameLines_of_unedited (unedited_setCutoff cutoff))
  | createColumn problem x =>
    exact hlines rfl (by simp) (along_forgetful (sameLines_createColumn problem x))
  | createRow name spec =>
    refine Ends.bind_iff.mpr (((ends_createRow hlp name spec).and
      (intact_createRow name spec lp)).mono (fun _ t ht => ?_) fun _ _ _ => trivial)
    obtain ⟨⟨hcoherent, hamount, -⟩, hintact⟩ := ht
    exact .inr (hintact.sameLines.sameActive hlp hcoherent fun c _ r _ => by rw [hamount])
  | captureRow r => exact hlines rfl (by simp) (sameLines_of_steady (steady_captureRow r))
  | releaseRow r => exact hlines rfl (by simp) (sameLines_releaseRow r)
  | lockRow r => exact hlines rfl (by simp) (sameLines_of_steady (steady_lockRow r))
  | unlockRow r => exact hlines rfl (by simp) (sameLines_of_steady (steady_unlockRow r))
  | addColumn c => exact houtdates (outdates_addColumn c).orSkips
  | addRow r => exact houtdates (outdates_addRow r).orSkips
  | shrinkColumns size => exact houtdates (outdates_shrinkColumns size)
  | shrinkRows size => exact houtdates (outdates_shrinkRows size)
  | deleteRows mask => exact houtdates (outdates_deleteRows mask)
  | clear => exact houtdates outdates_clear
  | changeObjective c objective =>
    exact (ends_changeObjective c objective).mono (fun _ _ h => h.1.obsolete_or_same hlp)
      fun _ _ _ => trivial
  | changeBound c side value =>
    exact (ends_changeBound c side value).mono (fun _ _ h => h.obsolete_or_same hlp)
      fun _ _ _ => trivial
  | changeSide r side value =>
    cases hrow : lp.matrix.row? r with
    | none =>
      exact (ends_changeSide_missing hrow side value).mono (fun _ _ h => h.elim)
        fun _ _ _ => trivial
    | some row =>
      exact (ends_changeSide hrow side value).mono (fun _ _ h => h.1.obsolete_or_same hrow hlp)
        fun _ _ _ => trivial
  | changeConstant r constant =>
    cases hrow : lp.matrix.row? r with
    | none =>
      exact (ends_changeConstant_missing hrow constant).mono (fun _ _ h => h.elim)
        fun _ _ _ => trivial
    | some row =>
      exact (ends_changeConstant hrow constant).mono (fun _ _ h => h.1.obsolete_or_same hrow hlp)
        fun _ _ _ => trivial
  | coefficient c r =>
    exact hlines rfl (by simp) (along_forgetful (sameLines_of_steady (steady_coefficient c r)))
  | edit c r e =>
    exact (hlp.ends_edit_guards (ha c List.mem_cons_self) r e).mono_ok
      fun _ _ h => h.2.2.imp_right And.left
  | addCoefficientsInRow r coefficients =>
    exact (hlp.ends_addCoefficientsInRow_guards r fun x hx =>
      ha x.1 (List.mem_map_of_mem hx)).mono_ok fun _ _ h => h.imp_right And.left
  | delayOrder r => exact hlines rfl (by simp) (sameLines_of_steady (steady_delayOrder r))
  | forceOrder r => exact hlines rfl (by simp) (sameLines_of_steady (steady_forceOrder r))
  | sync => exact hlines rfl (by simp) (sameLines_of_intact intact_sync)
  | solve a => exact hlines rfl (by simp) (along_forgetful (sameLines_of_intact (intact_solve a)))
  | solveAnd write a =>
    exact hlines rfl (by simp) (along_forgetful (sameLines_of_intact (intact_solveAnd write a)))
  | storeSolution =>
    exact hlines rfl (by simp) (sameLines_of_unedited unedited_storeSolution)
  | restoreSolution =>
    exact hlines rfl (by simp) (sameLines_of_unedited unedited_restoreSolution)
  | rowActivity r =>
    exact hlines rfl (by simp) (along_forgetful (sameLines_of_unedited (unedited_rowActivity r)))
  | rowFeasibility r =>
    exact hlines rfl (by simp)
      (along_forgetful (sameLines_of_unedited (unedited_rowFeasibility r)))
  | startDive store => exact hlines rfl (by simp) (sameLines_startDive store)
  | setIterationLimit limit =>
    exact hlines rfl (by simp) (.modify fun _ => sameLines_of_eq rfl rfl rfl)
  | endDive problem => exact (hdive problem rfl).elim

/-- After any run on top of any solver, an operation that returns and changes the active linear
program makes the last solution obsolete, unless it is the end of a dive. Then neither a status nor a
bound for the objective is known any more. -/
theorem performAll_obsolete_of_changed (hcreate : create solver settings = .ok lp)
    (hactions : Throughout Permits lp actions) (ha : (lp.performAll actions).Permits a)
    (hdive : ∀ problem, a ≠ .endDive problem)
    (hrun : (perform a).run.run (lp.performAll actions) = (.ok (), t))
    (hchanged : ¬ SameProgram (lp.performAll actions) t) :
    t.flags.solved = false ∧ t.status = .notSolved ∧ t.objective = .negInf := by
  have hcoherent := (records_create hcreate).coherent.performAll hactions
  have ht : t.Coherent := by
    have hperform := hcoherent.perform ha
    rwa [after, hrun] at hperform
  rcases (ends_obsolete_or_same hcoherent ha hdive).of_ok hrun with hobsolete | hsame
  · exact ⟨hobsolete.solved, hobsolete.status, hobsolete.objective⟩
  · exact (hchanged (hsame.sameProgram hcoherent ht)).elim

/-! ### A solved relaxation -/

/-- A relaxation without lines, on top of a simplex solver. -/
def fresh : Relaxation Simplex := (blank .empty).after (setSettings .standard)

theorem create_fresh : create Simplex.empty .standard = .ok fresh := rfl

/-- A linear program with one column and one row is built and solved. -/
def solvingActions : List Action := [
  .createColumn smallProblem ⟨0⟩, .createRow "r" ⟨⟨1, .posInf⟩, 0⟩, .edit ⟨0⟩ ⟨0⟩ (.addInRow 1),
  .addColumn ⟨0⟩, .addRow ⟨0⟩, .solve .empty]

/-- The coefficient is doubled after the linear program was solved. -/
theorem performAll_obsolete_of_changed_coefficient :
    let lp := fresh.performAll solvingActions
    let t := lp.after (edit ⟨0⟩ ⟨0⟩ (.increase 1))
    lp.flags.solved = true ∧ lp.objective = 1 ∧ t.flags.solved = false ∧ t.status = .notSolved ∧
      t.objective = .negInf := by
  refine ⟨by decide +kernel, by decide +kernel, ?_⟩
  refine performAll_obsolete_of_changed (a := .edit ⟨0⟩ ⟨0⟩ (.increase 1)) create_fresh
    (by decide +kernel) (by decide +kernel) (by simp) (run_of_accepts (by decide +kernel))
    fun h => ?_
  have hsame := h.coefficient ⟨0⟩ (by decide +kernel) ⟨0⟩ (by decide +kernel)
  revert hsame
  decide +kernel

end Relaxation

end CertifiedLp
