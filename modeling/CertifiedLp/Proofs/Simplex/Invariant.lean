import Mathlib
import CertifiedLp.Proofs.Simplex.Phases

/-!
# The invariant of a solve

What holds of a tableau whenever a solve looks at it: at the start, with or without a basis to start
from, and before every step of either phase. `Tableau.Proper` states it in terms of rows, statuses
and values; it follows from the two properties that steps keep, those of `Tableau.Valid`.
-/

namespace CertifiedLp

namespace Tableau

variable {m n : Nat} {p : StandardForm m n} {t : Tableau m n} {budget : Budget}
variable {s : Progress m n}

/-- The tableau is a solved form of the equations, and its statuses fit the bounds. -/
structure Proper (p : StandardForm m n) (t : Tableau m n) : Prop where
  /-- The rows have the solutions of the first tableau. -/
  holds_iff : ∀ z, t.Holds z ↔ (initial p).Holds z
  /-- A basic variable occurs in its own row only, with coefficient one. -/
  coefficient_basicVar : ∀ k l, t.coefficient k (t.basicVar l) = if k = l then 1 else 0
  /-- Different rows have different basic variables. -/
  basicVar_injective : Function.Injective t.basicVar
  /-- The statuses tell which variables are basic. -/
  basic_iff : ∀ j, t.statusOf j = .basic ↔ ∃ k, t.basicVar k = j
  /-- A variable at its lower end has one. -/
  exists_lower : ∀ j, t.statusOf j = .lower → ∃ lower, (p.boundsOf j).lower = some lower
  /-- A variable at its upper end has one. -/
  exists_upper : ∀ j, t.statusOf j = .upper → ∃ upper, (p.boundsOf j).upper = some upper
  /-- A variable that is kept at zero is free. -/
  free_of_zero : ∀ j, t.statusOf j = .zero →
    (p.boundsOf j).lower = none ∧ (p.boundsOf j).upper = none
  /-- Every slack variable has the activity of its row as value. -/
  balanced : p.Balanced (values p t)
  /-- Every variable outside of the basis has the value that its status says. -/
  values_nonbasic : ∀ j, t.statusOf j ≠ .basic →
    (values p t).get j = (p.boundsOf j).statusValue (t.statusOf j)

theorem Valid.proper (h : t.Valid p) : t.Proper p where
  holds_iff z := (h.holds_iff z).trans ((solves_initial p).holds_iff z).symm
  coefficient_basicVar := h.coefficient_basicVar
  basicVar_injective := h.basicVar_injective
  basic_iff := h.basic_iff
  exists_lower j hj := by
    have hfits := h.fits j
    rw [hj] at hfits
    exact Option.isSome_iff_exists.mp hfits
  exists_upper j hj := by
    have hfits := h.fits j
    rw [hj] at hfits
    exact Option.isSome_iff_exists.mp hfits
  free_of_zero j hj := by
    have hfits := h.fits j
    rwa [hj] at hfits
  balanced := (h.holds_iff _).mp h.holds_values
  values_nonbasic j hj := h.get_values_of_ne_basic hj

/-- Whichever statuses a solve starts from, its first tableau is valid. -/
theorem valid_start (p : StandardForm m n) (target : Vector BasisStatus (n + m))
    (fromScratch : Bool) :
    (if fromScratch then initial p else (initial p).crash p target).Valid p := by
  split
  · exact valid_initial p
  · exact valid_crash (solves_initial p) target

/-- After any number of steps of the first phase. -/
theorem Valid.iterate_restoreStep (h : s.tableau.Valid p) (fuel : Nat) :
    (iterate (Tableau.restoreStep p budget) fuel s).1.tableau.Valid p := by
  apply iterate_keeps (P := fun s : Progress m n => s.tableau.Valid p) _ h rfl
  intro s s' hs hstep
  exact hs.restoreStep hstep

/-- After any number of steps of the second phase. -/
theorem Valid.iterate_optimizeStep (h : s.tableau.Valid p) (fuel : Nat) :
    (iterate (Tableau.optimizeStep p budget) fuel s).1.tableau.Valid p := by
  apply iterate_keeps (P := fun s : Progress m n => s.tableau.Valid p) _ h rfl
  intro s s' hs hstep
  exact hs.optimizeStep hstep

/-- For every linear program and all statuses to start from: the first tableau is `[-A | I]`, and
the invariant holds of it, of the tableau to start from, before every step of the first phase,
before every step of the second phase, and at the end. -/
theorem proper_throughout (p : StandardForm m n) (target : Vector BasisStatus (n + m))
    (fromScratch : Bool) (budget : Budget) (limit : Option Rat) :
    let start := if fromScratch then initial p else (initial p).crash p target
    ((∀ i j, (initial p).coefficient i (Fin.castAdd m j) = -p.coefficient i j) ∧
      (∀ i l, (initial p).coefficient i (Fin.natAdd n l) = if i = l then 1 else 0) ∧
      (initial p).Proper p) ∧
    start.Proper p ∧
    (∀ i, (iterate (restoreStep p budget) i ⟨start, 0⟩).1.tableau.Proper p) ∧
    (∀ i j, (iterate (optimizeStep p budget) j
      (iterate (restoreStep p budget) i ⟨start, 0⟩).1).1.tableau.Proper p) ∧
    (p.run budget limit start).1.tableau.Proper p := by
  intro start
  have hstart : start.Valid p := valid_start p target fromScratch
  have hrestored (i : Nat) : (iterate (restoreStep p budget) i ⟨start, 0⟩).1.tableau.Valid p :=
    hstart.iterate_restoreStep (s := ⟨start, 0⟩) i
  refine ⟨⟨coefficient_initial_column p, coefficient_initial_slack p, (valid_initial p).proper⟩,
    hstart.proper, ?_, ?_, ?_⟩
  · intro i
    exact (hrestored i).proper
  · intro i j
    exact ((hrestored i).iterate_optimizeStep j).proper
  · exact (StandardForm.run_ends budget limit hstart).1.proper

end Tableau

end CertifiedLp
