import Mathlib
import CertifiedLp.Proofs.Matrix.Seating

/-!
# Uses of rows

How many uses each row has, wherever it is. A row that gives up a use is freed if that was the last
one. Rows that are in a list give up one use each when the list is worked off.
-/

namespace CertifiedLp

variable {p : Places} {r s : RowRef} {place : RowPlace} {rs : List RowRef}

namespace Places

/-- The number of uses of a row, which is zero if the row was freed. -/
def uses (p : Places) (r : RowRef) : Nat := (p.row r).elim 0 RowPlace.nrUses

/-- Give up a use of a row, which is freed with its last use. -/
def release (p : Places) (r : RowRef) : Places :=
  if p.uses r = 1 then p.dropRow r else p.modifyUses r (· - 1)

/-- Rows leave the active linear program and are released, one after the other. -/
def withdraw (p : Places) (rs : List RowRef) : Places :=
  rs.foldl (fun p r => (p.moveRow r none).release r) p

/-- Rows are released, one after the other. -/
def releaseAll (p : Places) (rs : List RowRef) : Places := rs.foldl release p

theorem withdraw_concat (p : Places) (rs : List RowRef) (r : RowRef) :
    p.withdraw (rs ++ [r]) = ((p.withdraw rs).moveRow r none).release r := by
  rw [withdraw, List.foldl_append]
  rfl

theorem releaseAll_concat (p : Places) (rs : List RowRef) (r : RowRef) :
    p.releaseAll (rs ++ [r]) = (p.releaseAll rs).release r := by
  rw [releaseAll, List.foldl_append]
  rfl

theorem uses_of_row (h : p.row r = some place) : p.uses r = place.nrUses := by rw [uses, h]; rfl

theorem uses_of_none (h : p.row r = none) : p.uses r = 0 := by rw [uses, h]; rfl

/-- Where every row has a use, the rows without uses are those that were freed. -/
theorem uses_eq_zero_iff (hp : ∀ {r place}, p.row r = some place → 0 < place.nrUses) :
    p.uses r = 0 ↔ p.row r = none := by
  cases hrow : p.row r with
  | none => simp [uses_of_none hrow]
  | some place =>
    rw [uses_of_row hrow]
    exact ⟨fun h => ((hp hrow).ne' h).elim, fun h => nomatch h⟩

/-- A change of a row concerns the uses of that row at most. -/
theorem uses_modifyRow (hr : (p.row r).isSome = true) (f : RowPlace → RowPlace) (g : Nat → Nat)
    (hf : ∀ place, (f place).nrUses = g place.nrUses) (s : RowRef) :
    (p.modifyRow r f).uses s = if s = r then g (p.uses s) else p.uses s := by
  obtain ⟨place, hplace⟩ := Option.isSome_iff_exists.mp hr
  split
  · next heq =>
    subst heq
    rw [uses_of_row (row_modifyRow_self hplace), uses_of_row hplace, hf]
  · next hne => rw [uses, row_modifyRow_of_ne hne, uses]

theorem uses_moveRow (p : Places) (r : RowRef) (position : Option Nat) (s : RowRef) :
    (p.moveRow r position).uses s = p.uses s := by
  rw [uses, uses, moveRow, modifyRow]
  simp only
  split
  · cases p.row s <;> rfl
  · rfl

theorem uses_seat (p : Places) (moves : List (RowRef × Option Nat)) (s : RowRef) :
    (p.seat moves).uses s = p.uses s := by
  induction moves generalizing p with
  | nil => rfl
  | cons x moves ih => exact (ih _).trans (p.uses_moveRow x.1 x.2 s)

theorem uses_dropRow (p : Places) (r s : RowRef) :
    (p.dropRow r).uses s = if s = r then 0 else p.uses s := by
  split
  · next heq => exact uses_of_none (if_pos heq)
  · next hne => rw [uses, row_dropRow_of_ne hne, uses]

/-- A row that is released has one use less, and the other rows have those that they had. -/
theorem uses_release (p : Places) (r s : RowRef) :
    (p.release r).uses s = if s = r then p.uses s - 1 else p.uses s := by
  rw [release]
  split
  · next hlast =>
    rw [uses_dropRow]
    split
    · next heq => rw [heq, hlast]
    · rfl
  · by_cases hr : (p.row r).isSome = true
    · exact uses_modifyRow hr _ (· - 1) (fun _ => rfl) s
    · rw [modifyUses, uses, modifyRow, uses]
      rw [Option.not_isSome_iff_eq_none] at hr
      by_cases hs : s = r <;> simp [hs, hr]

theorem row_release_of_ne (h : s ≠ r) : (p.release r).row s = p.row s := by
  rw [release]
  split
  · exact row_dropRow_of_ne h
  · exact row_modifyRow_of_ne h

/-- Steps that take a use from one row each, take one from every row of a list. -/
theorem uses_foldl {step : Places → RowRef → Places} (hrs : rs.Nodup)
    (hstep : ∀ p r s, (step p r).uses s = if s = r then p.uses s - 1 else p.uses s)
    (p : Places) (s : RowRef) :
    (rs.foldl step p).uses s = if s ∈ rs then p.uses s - 1 else p.uses s := by
  induction rs generalizing p with
  | nil => simp
  | cons r rs ih =>
    rw [List.nodup_cons] at hrs
    rw [List.foldl_cons, ih hrs.2, hstep]
    by_cases hs : s = r
    · subst hs
      simp [hrs.1]
    · simp [hs]

theorem uses_withdraw (hrs : rs.Nodup) (p : Places) (s : RowRef) :
    (p.withdraw rs).uses s = if s ∈ rs then p.uses s - 1 else p.uses s :=
  uses_foldl hrs (fun p r s => by rw [uses_release, uses_moveRow]) p s

theorem uses_releaseAll (hrs : rs.Nodup) (p : Places) (s : RowRef) :
    (p.releaseAll rs).uses s = if s ∈ rs then p.uses s - 1 else p.uses s :=
  uses_foldl hrs uses_release p s

/-- A new row has one use. -/
theorem uses_pushRow (p : Places) (s : RowRef) :
    p.pushRow.uses s = if s.index = p.nrRows then 1 else p.uses s := by
  rw [uses, pushRow]
  simp only
  split <;> rfl

end Places

namespace ConstraintMatrix

variable {m m' : ConstraintMatrix} {f : Row → Row}

/-- The number of uses of a row, which is zero if the row does not exist. -/
def uses (m : ConstraintMatrix) (r : RowRef) : Nat := (m.row? r).elim 0 Row.nrUses

theorem uses_places (m : ConstraintMatrix) (r : RowRef) : m.places.uses r = m.uses r := by
  have hplace : m.places.row r = (m.row? r).map Row.place := rfl
  rw [uses, Places.uses, hplace]
  cases m.row? r <;> rfl

theorem Stays.uses (h : m.Stays m') (r : RowRef) : m'.uses r = m.uses r := by
  rw [← uses_places, ← uses_places, h.places]

/-- A change that leaves the number of uses alone. -/
theorem uses_modifyRow (hf : ∀ row, (f row).nrUses = row.nrUses) (m : ConstraintMatrix)
    (r s : RowRef) : (m.modifyRow r f).uses s = m.uses s := by
  rw [uses, uses, row?_modifyRow]
  split
  · cases m.row? s with
    | none => rfl
    | some row => exact hf row
  · rfl

end ConstraintMatrix

/-- Unless its last use is given up while it is active, a row is released in any case. -/
theorem Withdrawn.release (hp : ∀ {r place}, p.row r = some place → 0 < place.nrUses)
    (hr : p.uses r = 1 → p.activeRow r = none) : Withdrawn p (p.release r) [] := by
  rw [Places.release]
  split
  · next hlast => exact .dropRow hp (hr hlast)
  · next hmore =>
    refine .unuse hp fun place hplace => ?_
    rw [Places.uses_of_row hplace] at hmore
    have hpositive := hp hplace
    omega

end CertifiedLp
