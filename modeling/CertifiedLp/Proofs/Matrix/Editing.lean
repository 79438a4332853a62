import Mathlib
import CertifiedLp.Proofs.Matrix.Changing

/-!
# Edits

The edits of a single coefficient as a family. All of them do what they do to the ledger of the
matrix: an edit of a row in order is accepted exactly when the ledger accepts it, and values that are
given to a row that delays its order are added up, as far as they are accepted.
-/

namespace CertifiedLp

/-- An edit of a single coefficient. -/
inductive Edit where
  /-- Store a value that does not exist, in the column. -/
  | addInColumn (value : Extended)
  /-- Store a value that does not exist, in the row. -/
  | addInRow (value : Extended)
  /-- Set the value. -/
  | change (value : Extended)
  /-- Add to the value. -/
  | increase (increment : Extended)
  /-- Remove the value, which has to exist. -/
  | delete
  deriving DecidableEq

/-- What an edit adds to the coefficient, if it is one that adds. -/
def Edit.increment : Edit → Extended
  | addInColumn v | addInRow v | increase v => v
  | change _ | delete => 0

namespace Ledger

/-- What an edit makes of a ledger, if it is accepted. -/
def edit? (L : Ledger) (locked : Bool) (c : ColumnRef) (r : RowRef) : Edit → Option Ledger
  | .addInColumn v | .addInRow v => L.add? locked c r v
  | .change v => L.change? locked c r v
  | .increase v => L.increase? locked c r v
  | .delete => L.delete? locked c r

/-- The ledger after an edit was accepted or refused. For a row in order, this is up to the ledger
itself. Values for a row that delays its order are added up. -/
def after (L : Ledger) (row : Row) (accepted : Bool) (c : ColumnRef) (r : RowRef) (e : Edit) :
    Ledger :=
  if row.delayed then
    if accepted then L.set c r (L c r + e.increment.rational) else L
  else (L.edit? row.isLocked c r e).getD L

end Ledger

namespace ConstraintMatrix

variable {m m' : ConstraintMatrix} {c : ColumnRef} {r : RowRef} {row : Row} {e : Edit}
variable {v : Extended} {accepted : Bool} {L : Ledger}

/-- Edit a coefficient. -/
def edit (c : ColumnRef) (r : RowRef) : Edit → MatrixM Unit
  | .addInColumn v => addInColumn c r v
  | .addInRow v => addInRow r c v
  | .change v => change c r v
  | .increase v => increase r c v
  | .delete => delete c r

/-- An edit of a row that does not exist fails. -/
theorem ends_edit_missing (h : m.row? r = none) (c : ColumnRef) (e : Edit) :
    Ends (edit c r e) m (fun _ _ => False) fun _ m' => m' = m := by
  cases e with
  | addInColumn v => exact Ends.bind_iff.mpr ((ends_checkUnlocked_missing h).mpr rfl)
  | addInRow v => exact Ends.bind_iff.mpr ((ends_checkUnlocked_missing h).mpr rfl)
  | change v => exact Ends.bind_iff.mpr ((ends_checkUnlocked_missing h).mpr rfl)
  | increase v => exact Ends.bind_iff.mpr ((ends_checkUnlocked_missing h).mpr rfl)
  | delete => exact Ends.bind_iff.mpr ((ends_checkUnlocked_missing h).mpr rfl)

/-- What an edit does to a matrix in which the row exists. What is removed from a row that delays its
order is not said. -/
structure Edited (m m' : ConstraintMatrix) (row : Row) (c : ColumnRef) (r : RowRef) (e : Edit)
    (accepted : Bool) : Prop where
  sound : m'.Sound
  stays : m.Stays m'
  decision : row.delayed = false → (m.amount.edit? row.isLocked c r e).isSome = accepted
  amount : (row.delayed = true → e ≠ .delete) → m'.amount = m.amount.after row accepted c r e
  spares : Spares m m' c r
  announced : m'.Announced c r ∨ m'.linked c r = m.linked c r

/-- A coefficient that is not announced is still what its lines know of it. -/
theorem Reported.announced_or_linked (h : Reported m m' L) :
    m'.Announced c r ∨ m'.linked c r = m.linked c r := by
  by_cases hL : L c r = m.amount c r
  · exact .inr (h.linked hL)
  · exact .inl (h.announced hL)

/-- The ledger accepts the edit. -/
theorem Reported.edited {a : Rat} (h : Reported m m' (m.amount.set c r a))
    (hordered : row.delayed = false)
    (hsome : m.amount.edit? row.isLocked c r e = some (m.amount.set c r a)) :
    Edited m m' row c r e true where
  sound := h.sound
  stays := h.stays
  decision _ := by rw [hsome]; rfl
  amount _ := by
    rw [Ledger.after, hordered, if_neg Bool.false_ne_true, hsome, h.amount]
    rfl
  spares := h.spares
  announced := h.announced_or_linked

/-- The ledger refuses the edit, and no coefficient changes. -/
theorem Reported.refused (h : Reported m m' m.amount)
    (hnone : row.delayed = false → m.amount.edit? row.isLocked c r e = none) :
    Edited m m' row c r e false where
  sound := h.sound
  stays := h.stays
  decision hordered := by rw [hnone hordered]; rfl
  amount _ := by
    rw [h.amount, Ledger.after]
    cases hdelayed : row.delayed with
    | true => rfl
    | false => rw [hnone hdelayed]; rfl
  spares := h.spares_all
  announced := h.announced_or_linked

/-- Edits that add something. -/
theorem Adds.ends_edited {x : MatrixM Unit} {outcome : Option Ledger}
    (h : Adds x m c r v outcome) (hrow : m.row? r = some row)
    (hedit : m.amount.edit? row.isLocked c r e = outcome) (hincrement : e.increment = v)
    (houtcome : ∀ L, outcome = some L → L = m.amount.set c r (m.amount c r + v.rational)) :
    Ends x m (fun _ m' => Edited m m' row c r e true) fun _ m' => Edited m m' row c r e false := by
  refine h.mono (fun _ m' hm' => ?_) fun _ m' hm' =>
    hm'.1.refused fun hordered => hedit.trans (hm'.2 ((inOrder_row hrow).mpr hordered))
  obtain ⟨hreported, hsome⟩ := hm'
  refine ⟨hreported.sound, hreported.stays, fun hordered => ?_, fun _ => ?_, hreported.spares,
    hreported.announced_or_linked⟩
  · rw [hedit, hsome ((inOrder_row hrow).mpr hordered)]
  · rw [hreported.amount, Ledger.after, hincrement]
    cases hdelayed : row.delayed with
    | true => rfl
    | false =>
      obtain ⟨L, hL⟩ := Option.isSome_iff_exists.mp (hsome ((inOrder_row hrow).mpr hdelayed))
      rw [hedit, hL, houtcome L hL]
      rfl

/-- A value that is removed is not there any more, as far as the row is in order. -/
theorem Deleted.edited (h : Deleted m m' c r accepted)
    (hdecision : row.delayed = false → (m.amount.delete? row.isLocked c r).isSome = accepted)
    (hamount : row.delayed = false →
      m'.amount = (m.amount.delete? row.isLocked c r).getD m.amount) :
    Edited m m' row c r .delete accepted where
  sound := h.sound
  stays := h.stays
  decision := hdecision
  amount hkeeps := by
    have hordered : row.delayed = false :=
      Bool.eq_false_iff.mpr fun hdelayed => hkeeps hdelayed rfl
    rw [hamount hordered, Ledger.after, hordered]
    rfl
  spares := h.spares
  announced := by
    have hannounced := h.announced
    cases accepted with
    | true => exact .inl hannounced
    | false => exact .inr hannounced

theorem ends_edit (hm : m.Sound) (hc : m.Has (.column c)) (hrow : m.row? r = some row) (e : Edit) :
    Ends (edit c r e) m (fun _ m' => Edited m m' row c r e true)
      fun _ m' => Edited m m' row c r e false := by
  cases e with
  | addInColumn v =>
    exact (adds_addInColumn hm hc hrow).ends_edited hrow rfl rfl fun _ =>
      Ledger.eq_of_add?_eq_some
  | addInRow v =>
    exact (adds_addInRow hm hc hrow).ends_edited hrow rfl rfl fun _ => Ledger.eq_of_add?_eq_some
  | increase v =>
    exact (adds_increase hm hc hrow).ends_edited hrow rfl rfl fun _ =>
      Ledger.eq_of_increase?_eq_some
  | change v =>
    cases hdelayed : row.delayed with
    | true =>
      refine (ends_change_delayed hrow hdelayed).mono (fun _ _ h => h.elim) fun _ m' hm' => ?_
      subst hm'
      exact hm.reported.refused fun hordered => nomatch hdelayed.symm.trans hordered
    | false =>
      refine (follows_change hm hc hrow hdelayed).mono (fun _ m' hm' => ?_) fun _ m' hm' =>
        hm'.2.refused fun _ => hm'.1
      obtain ⟨L, hL, hreported⟩ := hm'
      obtain rfl := Ledger.eq_of_change?_eq_some hL
      exact hreported.edited hdelayed hL
  | delete =>
    refine (ends_delete hm hc hrow).mono (fun _ m' hm' => ?_) fun _ m' hm' => ?_
    · have hsome (hordered : row.delayed = false) := hm'.2 ((inOrder_row hrow).mpr hordered)
      exact hm'.1.edited (fun hordered => by rw [hsome hordered]; rfl)
        fun hordered => by rw [hsome hordered]; rfl
    · have hnone (hordered : row.delayed = false) := hm'.2 ((inOrder_row hrow).mpr hordered)
      exact hm'.1.edited (fun hordered => by rw [(hnone hordered).1]; rfl)
        fun hordered => by rw [(hnone hordered).1, (hnone hordered).2]; rfl

/-! ## Rows that delay their order -/

/-- Such a row accepts an increment as it accepts a value. -/
theorem ends_increase_delayed (hm : m.Sound) (hc : m.Has (.column c)) (hrow : m.row? r = some row)
    (hdelayed : row.delayed = true) :
    Ends (increase r c v) m (fun _ _ => row.isLocked = false ∧ m.Appendable c r v)
      fun _ _ => ¬ (row.isLocked = false ∧ m.Appendable c r v) := by
  rw [increase, Ends.bind_iff, ends_checkUnlocked hrow]
  refine ⟨fun hlocked h => by simp [hlocked] at h, fun hunlocked => ?_⟩
  rw [Ends.ite_iff]
  refine ⟨fun hzero => ⟨hunlocked, .inl (by simpa [Extended.isZero] using hzero)⟩, fun _ => ?_⟩
  rw [Ends.bind_iff, ends_getRow hrow, if_pos hdelayed]
  exact ends_addInRow_delayed hm hc hrow hdelayed

/-- Nothing is stored in a column for such a row. -/
theorem ends_addInColumn_delayed (hrow : m.row? r = some row) (hdelayed : row.delayed = true) :
    Ends (addInColumn c r v) m (fun _ _ => row.isLocked = false ∧ v = 0)
      fun _ _ => ¬ (row.isLocked = false ∧ v = 0) := by
  rw [addInColumn, Ends.bind_iff, ends_checkUnlocked hrow]
  refine ⟨fun hlocked h => by simp [hlocked] at h, fun hunlocked => ?_⟩
  rw [Ends.ite_iff]
  refine ⟨fun hzero => ⟨hunlocked, by simpa [Extended.isZero] using hzero⟩, fun hzero => ?_⟩
  rw [Ends.bind_iff, ends_checkOrdered hrow]
  refine ⟨fun _ h => hzero (by simpa [Extended.isZero] using h.2), fun hordered => ?_⟩
  rw [hdelayed] at hordered
  cases hordered

end ConstraintMatrix

end CertifiedLp
