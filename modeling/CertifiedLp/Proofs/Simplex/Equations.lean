import Mathlib
import CertifiedLp.Simplex.Pivoting

/-!
# Solved systems of equations

Every tableau of a solve is a rearrangement of the same equations. `Tableau.Solves` collects what
that means: the rows have the solutions of the equations, each basic variable stands alone in its
own row, and the statuses say which variables are basic. The first tableau has these properties, a
pivot on a coefficient that is not zero keeps them, and therefore a start from any basis has them.

What follows from them is used by both phases: a row is an equation for its basic variable
(`Solves.sum_row`), and the coefficients of the slack variables in a row are the multipliers with
which the rows of the linear program add up to it (`Solves.coefficient_column`).
-/

namespace CertifiedLp

theorem sumOver_eq_sum (n : Nat) (f : Fin n → Rat) : sumOver n f = ∑ i, f i := by
  induction n with
  | zero => simp
  | succ n ih => rw [sumOver_succ, ih, Fin.sum_univ_castSucc]

/-- A linear form of a point that is moved along a direction. -/
theorem sum_mul_add_mul {k : Nat} (a x d : Fin k → Rat) (distance : Rat) :
    ∑ j, a j * (x j + distance * d j) = ∑ j, a j * x j + distance * ∑ j, a j * d j := by
  rw [Finset.mul_sum, ← Finset.sum_add_distrib]
  exact Finset.sum_congr rfl fun j _ => by ring

section Families

variable {α : Type} {m n : Nat}

theorem get_ext {u v : Vector α n} (h : ∀ i, u.get i = v.get i) : u = v :=
  Vector.ext fun i hi => h ⟨i, hi⟩

@[simp] theorem get_append_castAdd (u : Vector α n) (v : Vector α m) (j : Fin n) :
    (u ++ v).get (Fin.castAdd m j) = u.get j :=
  Vector.getElem_append_left j.isLt

@[simp] theorem get_append_natAdd (u : Vector α n) (v : Vector α m) (i : Fin m) :
    (u ++ v).get (Fin.natAdd n i) = v.get i := by
  have h : (u ++ v)[n + i.val] = v[n + i.val - n] :=
    Vector.getElem_append_right (Nat.add_lt_add_left i.isLt n) (Nat.le_add_right n i.val)
  simp only [Nat.add_sub_cancel_left] at h
  exact h

/-- Replacing members does not touch the others. -/
theorem get_foldl_replaceAt_of_ne {place : Fin m → Fin n} (f : Fin m → α) {j : Fin n}
    (ks : List (Fin m)) (v : Vector α n) (h : ∀ k ∈ ks, place k ≠ j) :
    (ks.foldl (fun z k => replaceAt z (place k) (f k)) v).get j = v.get j := by
  induction ks generalizing v with
  | nil => rfl
  | cons k ks ih =>
    rw [List.foldl_cons, ih _ fun l hl => h l (List.mem_cons_of_mem _ hl),
      get_replaceAt_of_ne _ (h k List.mem_cons_self)]

/-- Members that are replaced at different places all have their new value. -/
theorem get_foldl_replaceAt {place : Fin m → Fin n} (hplace : Function.Injective place)
    (f : Fin m → α) (v : Vector α n) (k : Fin m) :
    ((List.finRange m).foldl (fun z k => replaceAt z (place k) (f k)) v).get (place k) = f k := by
  have hmem : k ∈ List.finRange m := List.mem_finRange k
  generalize List.finRange m = ks at hmem
  induction ks generalizing v with
  | nil => exact absurd hmem List.not_mem_nil
  | cons l ks ih =>
    rw [List.foldl_cons]
    by_cases hk : k ∈ ks
    · exact ih _ hk
    · obtain rfl : k = l := (List.mem_cons.mp hmem).resolve_right hk
      have hothers : ∀ l ∈ ks, place l ≠ place k := by
        intro l hl heq
        exact hk (hplace heq ▸ hl)
      rw [get_foldl_replaceAt_of_ne f ks _ hothers, get_replaceAt_self]

end Families

theorem Bounds.startStatus_ne_basic (b : Bounds) : b.startStatus ≠ .basic := by
  rw [startStatus]
  split
  · simp
  · split <;> simp

theorem Bounds.feasibleStatus_ne_basic (b : Bounds) (preferred : BasisStatus) :
    b.feasibleStatus preferred ≠ .basic := by
  have h := b.startStatus_ne_basic
  cases preferred
  case basic => exact h
  all_goals
    rw [feasibleStatus]
    split
    · simp
    · exact h

namespace StandardForm

variable {m n : Nat} {p : StandardForm m n}

theorem balanced_iff {z : Vector Rat (n + m)} : p.Balanced z ↔ ∀ i, z.get (Fin.natAdd n i) =
    ∑ j, p.coefficient i j * z.get (Fin.castAdd m j) := by
  simp only [Balanced, sumOver_eq_sum]

theorem objective_eq_sum (z : Vector Rat (n + m)) :
    p.objective z = ∑ j, p.costOf j * z.get j := sumOver_eq_sum _ _

end StandardForm

namespace Tableau

variable {m n : Nat} {p : StandardForm m n} {t : Tableau m n} {z : Vector Rat (n + m)}

theorem holds_iff : t.Holds z ↔ ∀ k, ∑ j, t.coefficient k j * z.get j = 0 := by
  simp only [Holds, sumOver_eq_sum]

/-- The rows of a tableau are the equations of a standard form, solved for the basic variables. -/
structure Solves (p : StandardForm m n) (t : Tableau m n) : Prop where
  /-- The rows have the same solutions as the equations. -/
  holds_iff : ∀ z, t.Holds z ↔ p.Balanced z
  /-- A basic variable occurs in its own row only, with coefficient one. -/
  coefficient_basicVar : ∀ k l, t.coefficient k (t.basicVar l) = if k = l then 1 else 0
  /-- The statuses tell which variables are basic. -/
  basic_iff : ∀ j, t.statusOf j = .basic ↔ ∃ k, t.basicVar k = j

/-! ## The first tableau -/

theorem coefficient_initial_column (p : StandardForm m n) (i : Fin m) (j : Fin n) :
    (initial p).coefficient i (Fin.castAdd m j) = -p.coefficient i j := by
  simp [coefficient, initial]

theorem coefficient_initial_slack (p : StandardForm m n) (i l : Fin m) :
    (initial p).coefficient i (Fin.natAdd n l) = if i = l then 1 else 0 := by
  simp [coefficient, initial]

theorem basicVar_initial (p : StandardForm m n) (k : Fin m) :
    (initial p).basicVar k = Fin.natAdd n k := by
  simp [basicVar, initial]

theorem statusOf_initial (p : StandardForm m n) (j : Fin (n + m)) :
    (initial p).statusOf j = if j.val < n then (p.boundsOf j).startStatus else .basic := by
  simp [statusOf, initial]

theorem solves_initial (p : StandardForm m n) : (initial p).Solves p := by
  constructor
  · intro z
    rw [Tableau.holds_iff, StandardForm.balanced_iff]
    refine forall_congr' fun i => ?_
    rw [Fin.sum_univ_add]
    simp only [coefficient_initial_column, coefficient_initial_slack, neg_mul,
      Finset.sum_neg_distrib, ite_mul, one_mul, zero_mul, Finset.sum_ite_eq, Finset.mem_univ,
      if_true]
    rw [neg_add_eq_zero, eq_comm]
  · intro k l
    rw [basicVar_initial, coefficient_initial_slack]
  · intro j
    rw [statusOf_initial]
    refine Fin.addCases (fun c => ?_) (fun i => ?_) j
    · have hne : ∀ k, (initial p).basicVar k ≠ Fin.castAdd m c := by
        intro k heq
        have hval := congrArg Fin.val heq
        simp only [basicVar_initial, Fin.val_natAdd, Fin.val_castAdd] at hval
        omega
      rw [if_pos (by simp)]
      exact iff_of_false (Bounds.startStatus_ne_basic _) (not_exists.mpr hne)
    · rw [if_neg (by simp)]
      exact ⟨fun _ => ⟨i, basicVar_initial p i⟩, fun _ => rfl⟩

/-! ## Pivots -/

section Pivot

variable {k r : Fin m} {entering j : Fin (n + m)} {leaving : BasisStatus}

/-- The new row of the pivot is a multiple of the old one, and from every other row the multiple of
it that removes the entering variable is subtracted. -/
theorem coefficient_pivot (t : Tableau m n) (k r : Fin m) (entering j : Fin (n + m))
    (leaving : BasisStatus) : (t.pivot k entering leaving).coefficient r j =
      if r = k then t.coefficient k j / t.coefficient k entering
      else t.coefficient r j -
        t.coefficient r entering * (t.coefficient k j / t.coefficient k entering) := by
  have hrow : ((t.rows.get k).map (· / t.coefficient k entering)).get j =
      t.coefficient k j / t.coefficient k entering := Vector.getElem_map _ _
  simp only [coefficient, pivot, eliminate, get_ofFn] at hrow ⊢
  by_cases hr : r = k
  · rw [if_pos hr, if_pos hr, hrow]
  · rw [if_neg hr, if_neg hr]
    by_cases hfactor : (t.rows.get r).get entering = 0
    · rw [if_pos hfactor, hfactor, zero_mul, sub_zero]
    · rw [if_neg hfactor, get_ofFn, hrow]

theorem basicVar_pivot (t : Tableau m n) (k r : Fin m) (entering : Fin (n + m))
    (leaving : BasisStatus) : (t.pivot k entering leaving).basicVar r =
      if k = r then entering else t.basicVar r := by
  simp only [basicVar, pivot, get_replaceAt]

theorem statusOf_pivot (t : Tableau m n) (k : Fin m) (entering j : Fin (n + m))
    (leaving : BasisStatus) : (t.pivot k entering leaving).statusOf j =
      if t.basicVar k = j then leaving else if entering = j then .basic else t.statusOf j := by
  simp only [statusOf, pivot, get_replaceAt]

/-- A row after a pivot, added up. -/
theorem sum_row_pivot (t : Tableau m n) (k r : Fin m) (entering : Fin (n + m))
    (leaving : BasisStatus) (g : Fin (n + m) → Rat) :
    ∑ j, (t.pivot k entering leaving).coefficient r j * g j =
      if r = k then (∑ j, t.coefficient k j * g j) / t.coefficient k entering
      else ∑ j, t.coefficient r j * g j -
        t.coefficient r entering * ((∑ j, t.coefficient k j * g j) / t.coefficient k entering) := by
  by_cases hr : r = k
  · rw [if_pos hr, Finset.sum_div]
    refine Finset.sum_congr rfl fun j _ => ?_
    rw [coefficient_pivot, if_pos hr]
    ring
  · rw [if_neg hr, Finset.sum_div, Finset.mul_sum, ← Finset.sum_sub_distrib]
    refine Finset.sum_congr rfl fun j _ => ?_
    rw [coefficient_pivot, if_neg hr]
    ring

/-- A pivot on a coefficient that is not zero does not change which points solve the rows. -/
theorem holds_pivot (hcoefficient : t.coefficient k entering ≠ 0) (leaving : BasisStatus) :
    (t.pivot k entering leaving).Holds z ↔ t.Holds z := by
  simp only [holds_iff, sum_row_pivot]
  constructor
  · intro h
    have hk : ∑ j, t.coefficient k j * z.get j = 0 := by
      have hrow := h k
      rw [if_pos rfl, div_eq_zero_iff] at hrow
      exact hrow.resolve_right hcoefficient
    intro r
    by_cases hr : r = k
    · rw [hr, hk]
    · have hrow := h r
      rwa [if_neg hr, hk, zero_div, mul_zero, sub_zero] at hrow
  · intro h r
    simp only [h, zero_div, mul_zero, sub_zero, ite_self]

namespace Solves

/-- Different rows have different basic variables. -/
theorem basicVar_injective (h : t.Solves p) : Function.Injective t.basicVar := by
  intro k l heq
  by_contra hne
  have hone := h.coefficient_basicVar k k
  rw [heq, h.coefficient_basicVar, if_neg hne, if_pos rfl] at hone
  exact zero_ne_one hone

theorem statusOf_basicVar (h : t.Solves p) (k : Fin m) : t.statusOf (t.basicVar k) = .basic :=
  (h.basic_iff _).mpr ⟨k, rfl⟩

theorem ne_basicVar (h : t.Solves p) (hj : t.statusOf j ≠ .basic) (k : Fin m) :
    t.basicVar k ≠ j :=
  fun heq => hj ((h.basic_iff j).mpr ⟨k, heq⟩)

/-- A pivot solves the equations for another choice of basic variables. -/
theorem pivot (h : t.Solves p) (hcoefficient : t.coefficient k entering ≠ 0)
    (hentering : t.statusOf entering ≠ .basic) (hleaving : leaving ≠ .basic) :
    (t.pivot k entering leaving).Solves p := by
  constructor
  · intro z
    rw [holds_pivot hcoefficient leaving, h.holds_iff]
  · intro r l
    rw [basicVar_pivot]
    by_cases hl : k = l
    · subst hl
      rw [if_pos rfl, coefficient_pivot, div_self hcoefficient, mul_one, sub_self]
    · have hrow : t.coefficient k (t.basicVar l) = 0 := by rw [h.coefficient_basicVar, if_neg hl]
      rw [if_neg hl, coefficient_pivot, hrow, zero_div, mul_zero, sub_zero]
      by_cases hr : r = k
      · rw [if_pos hr, hr, if_neg hl]
      · rw [if_neg hr, h.coefficient_basicVar]
  · intro j
    rw [statusOf_pivot]
    by_cases hj : t.basicVar k = j
    · rw [if_pos hj]
      apply iff_of_false hleaving
      rintro ⟨r, hr⟩
      rw [basicVar_pivot] at hr
      split at hr
      · exact absurd (hr.trans hj.symm).symm (h.ne_basicVar hentering k)
      · next hne => exact absurd (h.basicVar_injective (hj.trans hr.symm)) hne
    · rw [if_neg hj]
      by_cases hent : entering = j
      · rw [if_pos hent]
        exact ⟨fun _ => ⟨k, by rw [basicVar_pivot, if_pos rfl, hent]⟩, fun _ => rfl⟩
      · rw [if_neg hent, h.basic_iff]
        refine exists_congr fun r => ?_
        rw [basicVar_pivot]
        split
        · next hr => exact ⟨fun heq => absurd (hr ▸ heq) hj, fun heq => absurd heq hent⟩
        · rfl

/-- Statuses outside of the basis do not matter to the equations. -/
theorem withStatus (h : t.Solves p) {status : Vector BasisStatus (n + m)}
    (hstatus : ∀ j, status.get j = .basic ↔ t.statusOf j = .basic) :
    ({ t with status } : Tableau m n).Solves p where
  holds_iff := h.holds_iff
  coefficient_basicVar := h.coefficient_basicVar
  basic_iff j := (hstatus j).trans (h.basic_iff j)

/-! ## Starting from a known basis -/

theorem enter (h : t.Solves p) (target : Vector BasisStatus (n + m)) (entering : Fin (n + m)) :
    (t.enter target entering).Solves p := by
  rw [Tableau.enter]
  split
  · exact h
  · next hwanted =>
    split
    · next k hfind =>
      have htest := List.find?_some hfind
      rw [Bool.and_eq_true, decide_eq_true_eq, decide_eq_true_eq] at htest
      exact h.pivot htest.2 (fun heq => hwanted (.inr heq)) (by simp)
    · exact h

theorem foldl_enter (h : t.Solves p) (target : Vector BasisStatus (n + m))
    (js : List (Fin (n + m))) : (js.foldl (Tableau.enter target) t).Solves p := by
  induction js generalizing t with
  | nil => exact h
  | cons j js ih => exact ih (h.enter target j)

theorem crash (h : t.Solves p) (target : Vector BasisStatus (n + m)) :
    (t.crash p target).Solves p := by
  refine (h.foldl_enter target _).withStatus fun j => ?_
  rw [get_ofFn]
  split
  · next hbasic => simp [hbasic]
  · next hbasic => simp [hbasic, Bounds.feasibleStatus_ne_basic]

/-! ## Rows as equations -/

/-- A sum over all variables, the basic ones apart. -/
theorem sum_eq (h : t.Solves p) (g : Fin (n + m) → Rat) :
    ∑ j, g j = ∑ k, g (t.basicVar k) + ∑ j with t.statusOf j ≠ .basic, g j := by
  have himage : ({j | t.statusOf j = .basic} : Finset (Fin (n + m))) =
      Finset.univ.image t.basicVar := by
    ext j
    simp [h.basic_iff]
  rw [← Finset.sum_filter_add_sum_filter_not Finset.univ (fun j => t.statusOf j = .basic),
    himage, Finset.sum_image h.basicVar_injective.injOn]

/-- A row is its basic variable and what the variables outside of the basis add to it. -/
theorem sum_row (h : t.Solves p) (k : Fin m) (g : Fin (n + m) → Rat) :
    ∑ j, t.coefficient k j * g j =
      g (t.basicVar k) + ∑ j with t.statusOf j ≠ .basic, t.coefficient k j * g j := by
  rw [h.sum_eq]
  simp [h.coefficient_basicVar]

/-- A row is a combination of the equations, with the coefficients of the slack variables as
multipliers. -/
theorem coefficient_column (h : t.Solves p) (k : Fin m) (j : Fin n) :
    t.coefficient k (Fin.castAdd m j) =
      -∑ i, t.coefficient k (Fin.natAdd n i) * p.coefficient i j := by
  -- The unit vector of the column and its activities solve the equations, so they solve the row.
  let z : Vector Rat (n + m) :=
    (Vector.ofFn fun c => if c = j then (1 : Rat) else 0) ++ Vector.ofFn fun i => p.coefficient i j
  have hbalanced : p.Balanced z := by
    rw [StandardForm.balanced_iff]
    intro i
    simp [z]
  have hrow := (Tableau.holds_iff.mp ((h.holds_iff z).mpr hbalanced)) k
  rw [Fin.sum_univ_add] at hrow
  simp only [z, get_append_castAdd, get_append_natAdd, get_ofFn, mul_ite, mul_one, mul_zero,
    Finset.sum_ite_eq', Finset.mem_univ, if_true] at hrow
  exact eq_neg_of_add_eq_zero_left hrow

end Solves

end Pivot

end Tableau

end CertifiedLp
