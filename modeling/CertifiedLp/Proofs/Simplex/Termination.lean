import Mathlib
import CertifiedLp.Proofs.Simplex.Program
import CertifiedLp.Proofs.Simplex.Repetition

/-!
# Termination of a solve

With the smallest variable chosen whenever there is a choice, no phase comes back to the same
statuses (Bland's rule), so each phase ends.

If a phase did come back, take the largest variable `u` that changes its status meanwhile, a tableau
`t` in which it enters the basis, and a tableau `t'` in which it leaves the basis for the end where
it is in `t` (`exists_return`).

* In the first phase (`Valid.not_restore_return`) some basic variable of `t` violates an end, and `u`
  is the first variable outside of the basis that repairs this. At the values of `t'` the violation
  is gone, while each term of the row outside of the basis is at least as large as at those of `t`:
  that of a variable before `u` because it is stuck, that of `u` because it is beyond its end, and
  that of a variable behind `u` because it has not changed.
* In the second phase (`Valid.not_optimize_return`) all values are the same in `t` and `t'`. The
  direction in which the entering variable of `t'` moves improves the objective, so it improves a
  term of the reduced costs of `t`. That term is not the one of `u`, because `u` moves toward its end
  in `t'` and away from it in `t`, and the variable of any other term would block the move in `t'`
  before `u`.
-/

namespace CertifiedLp

/-- The statuses of all variables. -/
def Progress.statuses {m n : Nat} (s : Progress m n) : Fin (n + m) → BasisStatus :=
  s.tableau.statusOf

namespace Tableau

variable {m n : Nat} {p : StandardForm m n} {t t' : Tableau m n} {budget : Budget}
variable {s s' : Progress m n} {v v' : Violation m} {u entering j : Fin (n + m)} {k : Fin m}
variable {side : Side} {b : Block m n}

/-! ## What the statuses determine -/

theorem Solves.holds_values_of_solves (h : t.Solves p) (h' : t'.Solves p) :
    t.Holds (values p t') :=
  (h.holds_iff _).mpr ((h'.holds_iff _).mp h'.holds_values)

/-- The values depend on the statuses only. -/
theorem Solves.values_eq_of_status_eq (h : t.Solves p) (h' : t'.Solves p)
    (hstatus : t'.status = t.status) : values p t' = values p t := by
  refine h.eq_values (h.holds_values_of_solves h') fun j hj => ?_
  have hj' : t'.statusOf j = t.statusOf j := congrArg (·.get j) hstatus
  rw [h'.get_values_of_ne_basic (hj' ▸ hj), hj']

/-- A pivot exchanges two variables. -/
theorem Solves.exchange_pivot (h : t.Solves p) (hentering : t.statusOf entering ≠ .basic)
    (k : Fin m) (side : Side) : Exchange t.statusOf (t.pivot k entering side.status).statusOf
      entering (t.basicVar k) side where
  outside := hentering
  inside := h.statusOf_basicVar k
  after j := statusOf_pivot t k entering j side.status

/-- If the statuses are the same again after some pivots, each of them chosen by a rule, then the
rule lets some variable enter in one tableau and leave in another one for the end where it was, and
no larger variable makes a difference between the two. -/
theorem exists_pivot_return (f : ℕ → Tableau m n)
    (Chosen : Tableau m n → Fin m → Fin (n + m) → Side → Prop) {N : ℕ} (hN : 0 < N)
    (hsolves : ∀ i, i < N → (f i).Solves p)
    (hpivot : ∀ i, i < N → ∃ k entering side, Chosen (f i) k entering side ∧
      (f i).statusOf entering ≠ .basic ∧ f (i + 1) = (f i).pivot k entering side.status)
    (hends : (f N).statusOf = (f 0).statusOf) :
    ∃ i j k u side k' entering side', i < N ∧ j < N ∧
      Chosen (f i) k u side ∧ Chosen (f j) k' entering side' ∧
      (f j).basicVar k' = u ∧ (f i).statusOf u = side'.status ∧
      (f i).basicVar k ≤ u ∧ entering ≤ u ∧
      ∀ w, u < w → (f i).statusOf w = (f j).statusOf w := by
  have : Nonempty (Fin m) := (hpivot 0 hN).nonempty
  have : Nonempty (Fin (n + m)) := (hpivot 0 hN).choose_spec.nonempty
  have : Nonempty Side := ⟨.lower⟩
  choose! k entering side hchosen houtside hnext using hpivot
  have hexchange (i : ℕ) (hi : i < N) : Exchange (f i).statusOf (f (i + 1)).statusOf (entering i)
      ((f i).basicVar (k i)) (side i) := by
    rw [hnext i hi]
    exact (hsolves i hi).exchange_pivot (houtside i hi) (k i) (side i)
  obtain ⟨i, j, hi, hj, hleaves, hside, hrow, hentering, hlarger⟩ :=
    exists_return hN hexchange hends
  exact ⟨i, j, k i, entering i, side i, k j, entering j, side j, hi, hj, hchosen i hi, hchosen j hj,
    hleaves, hside, hrow, hentering, hlarger⟩

/-! ## The first phase -/

/-- The variables before the one that is chosen to leave are within their bounds. -/
theorem Valid.contains_of_lt_firstViolation? (h : t.Valid p) (hordered : p.Ordered)
    (hv : t.firstViolation? p = some v) (hlt : j < t.basicVar v.row) :
    (p.boundsOf j).Contains ((values p t).get j) := by
  by_cases hj : t.statusOf j = .basic
  · obtain ⟨k, rfl⟩ := (h.basic_iff j).mp hj
    exact Tableau.contains_of_lt_firstViolation? hv hlt
  · rw [h.get_values_of_ne_basic hj]
    exact (hordered j).contains_statusValue hj (h.fits j)

/-- A variable that repairs a violation by moving away from an end makes it worse where it is beyond
this end. -/
theorem Valid.mul_le_of_repairs (h : t.Valid p) (hnonbasic : t.statusOf u ≠ .basic)
    (hrepairs : t.repairs p v u = true) (hside : t.statusOf u = side.status) {bound x : Rat}
    (hbound : (p.boundsOf u).get side = some bound) (hbeyond : side.Beyond bound x) :
    t.weight v u * (values p t).get u ≤ t.weight v u * x := by
  rw [h.get_values_of_ne_basic hnonbasic, hside, Bounds.statusValue_status hbound]
  rw [repairs_iff, canIncrease, canDecrease, hside] at hrepairs
  cases side with
  | lower =>
    rcases hrepairs with ⟨hneg, -⟩ | ⟨-, hmove⟩
    · exact mul_le_mul_of_nonpos_left (le_of_lt hbeyond) hneg.le
    · cases hmove
  | upper =>
    rcases hrepairs with ⟨-, hmove⟩ | ⟨hpos, -⟩
    · cases hmove
    · exact mul_le_mul_of_nonneg_left (le_of_lt hbeyond) hpos.le

/-- The first phase does not come back: a variable that leaves the basis in one tableau and enters it
from there in another one is not the largest that changes in between. -/
theorem Valid.not_restore_return (h : t.Valid p) (h' : t'.Valid p) (hordered : p.Ordered)
    (hv : t.firstViolation? p = some v) (hu : t.firstNonbasic? (t.repairs p v) = some u)
    (hv' : t'.firstViolation? p = some v') (hleaves : t'.basicVar v'.row = u)
    (hside : t.statusOf u = v'.side.status) (hrow : t.basicVar v.row ≤ u)
    (hlarger : ∀ j, u < j → t.statusOf j = t'.statusOf j) : False := by
  obtain ⟨hnonbasic, hrepairs⟩ := firstNonbasic?_eq_some hu
  have hwithin {j : Fin (n + m)} (hlt : j < u) :
      (p.boundsOf j).Contains ((values p t').get j) :=
    h'.contains_of_lt_firstViolation? hordered hv' (hleaves ▸ hlt)
  -- The violation is gone at the values of the other tableau.
  have hgain : v.side.sign * (values p t).get (t.basicVar v.row) <
      v.side.sign * (values p t').get (t.basicVar v.row) := by
    obtain ⟨bound, hbound, hbeyond⟩ := Bounds.violated?_eq_some (violated?_of_firstViolation? hv)
    obtain ⟨hsupports, hlt⟩ := hbeyond.supports_sign hbound
    exact hlt.trans_le
      (hsupports.mul_le (hwithin (lt_of_le_of_ne hrow (h.ne_basicVar hnonbasic _))))
  have hterm (j : Fin (n + m)) :
      t.weight v j * (values p t).get j ≤ t.weight v j * (values p t').get j := by
    by_cases hj : t.statusOf j = .basic
    · obtain ⟨k, rfl⟩ := (h.basic_iff j).mp hj
      rw [h.weight_basicVar]
      split
      · next hk =>
        subst hk
        exact hgain.le
      · simp
    · rcases lt_trichotomy j u with hlt | rfl | hgt
      · have hstuck := stuck_of_repairs_eq_false (firstNonbasic?_eq_false_of_lt hu hlt hj)
        rw [h.get_values_of_ne_basic hj]
        exact (hstuck.supports hj (h.fits j) (hordered j)).mul_le (hwithin hlt)
      · obtain ⟨bound, hbound, hbeyond⟩ :=
          Bounds.violated?_eq_some (violated?_of_firstViolation? hv')
        rw [hleaves] at hbound hbeyond
        exact h.mul_le_of_repairs hnonbasic hrepairs hside hbound hbeyond
      · rw [h.get_values_of_ne_basic hj, hlarger j hgt,
          h'.get_values_of_ne_basic (hlarger j hgt ▸ hj)]
  have hlt : t.weight v (t.basicVar v.row) * (values p t).get (t.basicVar v.row) <
      t.weight v (t.basicVar v.row) * (values p t').get (t.basicVar v.row) := by
    rwa [h.weight_basicVar, if_pos rfl]
  have hsum := Finset.sum_lt_sum (fun j _ => hterm j) ⟨_, Finset.mem_univ _, hlt⟩
  rw [sum_weight_mul h.holds_values v,
    sum_weight_mul (h.holds_values_of_solves h'.toSolves) v] at hsum
  exact lt_irrefl _ hsum

/-- No statuses repeat in the first phase. -/
theorem Valid.neverRepeats_restoreStep (h : s.tableau.Valid p) (hordered : p.Ordered) :
    NeverRepeats (Tableau.restoreStep p budget) Progress.statuses s := by
  refine neverRepeats_of_path ?_
  rintro path N rfl hpath i j hij hj hstatuses
  have hstatus : (path (i + (j - i))).tableau.statusOf = (path (i + 0)).tableau.statusOf := by
    rw [show i + (j - i) = j by omega]
    exact hstatuses.symm
  have hvalid (l : ℕ) (hl : l < j - i) : (path (i + l)).tableau.Valid p :=
    hpath.keeps (P := fun s => s.tableau.Valid p)
      (fun _ _ hs hstep => hs.restoreStep hstep) h (by omega)
  obtain ⟨a, b, k, u, side, k', entering, side', ha, hb, ⟨hv, hu⟩, ⟨hv', -⟩, hleaves, hside, hrow,
      -, hlarger⟩ := exists_pivot_return (fun l => (path (i + l)).tableau)
    (fun t k entering side => t.firstViolation? p = some ⟨k, side⟩ ∧
      t.firstNonbasic? (t.repairs p ⟨k, side⟩) = some entering)
    (N := j - i) (by omega) (fun l hl => (hvalid l hl).toSolves)
    (fun l hl => by
      obtain ⟨v, entering, hv, hentering, -, hnext⟩ :=
        restoreStep_eq_inl (hpath (i + l) (by omega))
      exact ⟨v.row, entering, v.side, ⟨hv, hentering⟩, (firstNonbasic?_eq_some hentering).1,
        congrArg Progress.tableau hnext⟩)
    hstatus
  exact (hvalid a ha).not_restore_return (hvalid b hb) hordered hv hu hv' hleaves hside hrow hlarger

/-! ## The second phase -/

/-- The second phase does not come back, either. -/
theorem Primal.not_optimize_return (h : t.Primal p) (h' : t'.Primal p) (hordered : p.Ordered)
    (hu : t.improving? p = some u) (hentering : t'.improving? p = some entering)
    (hb : t'.firstBlock? p entering (t'.improvingDirection p entering) = some b)
    (hrow : b.row? = some (k, side)) (hdistance : b.distance = 0) (hleaves : t'.basicVar k = u)
    (hside : t.statusOf u = side.status) (hle : entering ≤ u)
    (hlarger : ∀ j, u < j → t.statusOf j = t'.statusOf j) (hvalues : values p t' = values p t) :
    False := by
  obtain ⟨hnonbasic', hmove', hdescent'⟩ := improving?_eq_some hentering
  obtain ⟨hblocks, hfirst⟩ := toLex_le_of_firstBlock? hb
  obtain ⟨hblocking, hend, hahead⟩ : b.blocking = u ∧
      (∃ bound, (p.boundsOf u).get side = some bound) ∧
      side.Ahead (t'.rate entering (t'.improvingDirection p entering) k) := by
    rcases hblocks with ⟨_, -, rfl⟩ | ⟨l, hl⟩
    · cases hrow
    · obtain ⟨side', bound, hbound, rfl, hahead⟩ := rowBlock?_eq_some.mp hl
      cases hrow
      exact ⟨hleaves, ⟨bound, hleaves ▸ hbound⟩, hahead⟩
  -- Some term of the reduced costs of the first tableau gets smaller.
  obtain ⟨j, hj⟩ : ∃ j, (reducedCosts p t).get j *
      (t'.direction entering (t'.improvingDirection p entering)).get j < 0 := by
    by_contra hnone
    push Not at hnone
    have hholds : t.Holds (t'.direction entering (t'.improvingDirection p entering)) :=
      (h.holds_iff _).mpr ((h'.holds_iff _).mp (h'.holds_direction _ hnonbasic'))
    have hsum := Finset.sum_nonneg fun j (_ : j ∈ Finset.univ) => hnone j
    rw [← objective_eq hholds, h'.objective_direction _ hnonbasic'] at hsum
    exact hsum.not_gt hdescent'
  have hoff : t.statusOf j ≠ .basic := by
    intro hbasic
    obtain ⟨l, rfl⟩ := (h.basic_iff j).mp hbasic
    rw [h.reducedCost_basicVar, zero_mul] at hj
    exact lt_irrefl _ hj
  have hmoves (hj' : t'.statusOf j ≠ .basic) : entering = j := by
    by_contra hne
    rw [h'.get_direction_of_ne_basic _ hj', if_neg hne, mul_zero] at hj
    exact lt_irrefl _ hj
  rcases lt_trichotomy j u with hlt | rfl | hgt
  · -- The variable is at the end toward which it moves.
    obtain ⟨side', hend', hahead'⟩ := ((stuck_of_lt_improving? hu hlt hoff).supports hoff
      (h.fits j) (hordered j)).exists_ahead hj
    rw [← h.get_values_of_ne_basic hoff, ← hvalues] at hend'
    by_cases hj' : t'.statusOf j = .basic
    · obtain ⟨l, rfl⟩ := (h'.basic_iff j).mp hj'
      rw [h'.get_direction_basicVar] at hahead'
      have hbefore := hfirst _ (blocks_row side' hend' hahead')
      rw [sub_self, zero_div, hdistance, hblocking, Prod.Lex.toLex_le_toLex] at hbefore
      exact absurd hlt (by simpa using hbefore)
    · obtain rfl := hmoves hj'
      rw [h'.get_direction_of_ne_basic _ hj', if_pos rfl] at hahead'
      rw [h'.get_values_of_ne_basic hj'] at hend'
      exact Bounds.not_ahead_of_canMove (h'.fits _) hmove' hend' hahead'
  · -- The variable moves toward the end that it may move away from.
    obtain ⟨-, hmove, hdescent⟩ := improving?_eq_some hu
    obtain ⟨bound, hbound⟩ := hend
    have hj' := hj
    rw [← hleaves, h'.get_direction_basicVar, hleaves] at hj'
    refine Bounds.not_ahead_of_canMove (h.fits j) hmove ?_ (hahead.of_same_sign hj' hdescent)
    rw [hside, Bounds.statusValue_status hbound, hbound]
  · have hj' : t'.statusOf j ≠ .basic := hlarger j hgt ▸ hoff
    exact absurd (hmoves hj' ▸ hle) hgt.not_ge

/-- A step of the second phase that does not lower the objective is a pivot that leaves all values
as they are. -/
theorem Primal.stationary_of_objective_le (h : s.tableau.Primal p)
    (hstep : Tableau.optimizeStep p budget s = .inl s')
    (hobjective : p.objective (values p s.tableau) ≤ p.objective (values p s'.tableau)) :
    values p s'.tableau = values p s.tableau ∧ ∃ k entering side b,
      s.tableau.improving? p = some entering ∧
      s.tableau.firstBlock? p entering (s.tableau.improvingDirection p entering) = some b ∧
      b.row? = some (k, side) ∧ b.distance = 0 ∧
      s'.tableau = s.tableau.pivot k entering side.status := by
  obtain ⟨entering, b, hentering, hb, -, rfl⟩ := optimizeStep_eq_inl hstep
  obtain ⟨hnonbasic, hmove, hdescent⟩ := improving?_eq_some hentering
  obtain ⟨hblocks, -⟩ := blocks_of_firstBlock? hb
  have hvalues := (h.toValid.moveTo hnonbasic hmove hblocks).2
  have hdistance : b.distance = 0 := by
    rw [hvalues, objective_advance, h.objective_direction _ hnonbasic] at hobjective
    refine le_antisymm ?_ (h.distance_nonneg hmove hblocks)
    by_contra hpos
    have hless := mul_neg_of_pos_of_neg (not_le.mp hpos) hdescent
    linarith
  refine ⟨?_, ?_⟩
  · rw [hvalues, hdistance]
    exact get_ext fun j => by rw [get_advance, zero_mul, add_zero]
  · rcases hblocks with ⟨width, hwidth, rfl⟩ | ⟨l, hl⟩
    · exact absurd hdistance (Bounds.width_pos_of_canMove (h.fits entering) hmove hwidth).ne'
    · obtain ⟨side, bound, -, rfl, -⟩ := rowBlock?_eq_some.mp hl
      exact ⟨l, entering, side, _, hentering, hb, rfl, hdistance, rfl⟩

/-- No statuses repeat in the second phase. -/
theorem Primal.neverRepeats_optimizeStep (h : s.tableau.Primal p) (hordered : p.Ordered) :
    NeverRepeats (Tableau.optimizeStep p budget) Progress.statuses s := by
  refine neverRepeats_of_path ?_
  rintro path N rfl hpath i j hij hj hstatuses
  have hstatus : (path (i + (j - i))).tableau.statusOf = (path (i + 0)).tableau.statusOf := by
    rw [show i + (j - i) = j by omega]
    exact hstatuses.symm
  have hprimal (l : ℕ) (hl : l ≤ N) : (path l).tableau.Primal p :=
    hpath.keeps (P := fun s => s.tableau.Primal p)
      (fun _ _ hs hstep => hs.optimizeStep hstep) h hl
  have hantitone {a b : ℕ} (hab : a ≤ b) (hb : b ≤ N) :
      p.objective (values p (path b).tableau) ≤ p.objective (values p (path a).tableau) := by
    induction b, hab using Nat.le_induction with
    | base => exact le_rfl
    | succ b hab ih =>
      exact (objective_optimizeStep_le (hprimal b (by omega)) (hpath b hb)).trans (ih (by omega))
  -- The values come back, so the objective is the same all the time, and then so are the values.
  have hreturn : values p (path j).tableau = values p (path i).tableau :=
    (hprimal i (by omega)).values_eq_of_status_eq (hprimal j hj).toSolves
      (get_ext fun l => (congrFun hstatuses l).symm)
  have hstationary (l : ℕ) (hl : l < j - i) := by
    refine (hprimal (i + l) (by omega)).stationary_of_objective_le (hpath (i + l) (by omega)) ?_
    calc p.objective (values p (path (i + l)).tableau)
        ≤ p.objective (values p (path i).tableau) := hantitone (by omega) (by omega)
      _ = p.objective (values p (path j).tableau) := by rw [hreturn]
      _ ≤ p.objective (values p (path (i + l + 1)).tableau) := hantitone (by omega) hj
  have hvalues (l : ℕ) (hl : l ≤ j - i) :
      values p (path (i + l)).tableau = values p (path i).tableau := by
    induction l with
    | zero => rfl
    | succ l ih => exact (hstationary l (by omega)).1.trans (ih (by omega))
  obtain ⟨a, c, k, u, side, k', entering, side', ha, hc, ⟨hu, -⟩, ⟨hentering, b, hb, hrow, hdistance⟩,
      hleaves, hside, -, hle, hlarger⟩ := exists_pivot_return
    (fun l => (path (i + l)).tableau)
    (fun t k entering side => t.improving? p = some entering ∧ ∃ b,
      t.firstBlock? p entering (t.improvingDirection p entering) = some b ∧
      b.row? = some (k, side) ∧ b.distance = 0)
    (N := j - i) (by omega) (fun l hl => (hprimal (i + l) (by omega)).toSolves)
    (fun l hl => by
      obtain ⟨-, k, entering, side, b, hentering, hb, hrow, hdistance, hnext⟩ := hstationary l hl
      exact ⟨k, entering, side, ⟨hentering, b, hb, hrow, hdistance⟩,
        (improving?_eq_some hentering).1, hnext⟩)
    hstatus
  exact (hprimal (i + a) (by omega)).not_optimize_return (hprimal (i + c) (by omega)) hordered hu
    hentering hb hrow hdistance hleaves hside hle hlarger
    ((hvalues c hc.le).trans (hvalues a ha.le).symm)

/-! ## Limits -/

theorem exhausted?_of_restoreStep {limit : Limit}
    (h : Tableau.restoreStep p budget s = .inr (.stopped limit)) :
    budget.exhausted? s.iterations = some limit := by
  rw [Tableau.restoreStep] at h
  split at h
  · cases h
  · split at h
    · cases h
    · split at h
      · next hbudget => cases h; exact hbudget
      · cases h

theorem exhausted?_of_optimizeStep {limit : Limit}
    (h : Tableau.optimizeStep p budget s = .inr (.stopped limit)) :
    budget.exhausted? s.iterations = some limit := by
  rw [Tableau.optimizeStep] at h
  split at h
  · cases h
  · split at h
    · next hbudget => cases h; exact hbudget
    · dsimp only at h
      split at h <;> cases h

end Tableau

namespace StandardForm

variable {m n : Nat} {p : StandardForm m n} {budget : Budget} {s : Progress m n}
variable {start : Tableau m n}

/-- A phase may make more steps than there are statuses. -/
theorem card_statuses_lt (s : Progress m n) :
    Fintype.card (Fin (n + m) → BasisStatus) < s.maxSteps + 1 := by
  rw [Fintype.card_fun, Fintype.card_fin]
  exact Nat.lt_succ_self _

theorem exists_restore (budget : Budget) (h : s.tableau.Valid p) (hordered : p.Ordered) :
    ∃ s' r, p.restore budget s = (s', some r) :=
  (h.neverRepeats_restoreStep hordered).exists_end (card_statuses_lt s)

theorem exists_optimize (budget : Budget) (h : s.tableau.Primal p) (hordered : p.Ordered) :
    ∃ s' r, p.optimize budget s = (s', some r) :=
  (h.neverRepeats_optimizeStep hordered).exists_end (card_statuses_lt s)

/-- What the first phase leaves to the second one is within all bounds. -/
theorem primal_of_restore {s' : Progress m n} (h : s.tableau.Valid p) (hordered : p.Ordered)
    (hrun : p.restore budget s = (s', some .feasible)) : s'.tableau.Primal p :=
  (valid_restore h hrun).primal hordered (Tableau.firstViolation?_of_feasible (step_of_iterate hrun))

/-- A run does not cycle, and nothing but its budget stops it. -/
theorem run_terminates (budget : Budget) (limit : Option Rat) (hstart : start.Valid p)
    (hordered : p.Ordered) :
    (p.run budget limit start).2 ≠ .cycled ∧
      ∀ stop, (p.run budget limit start).2 = .stopped stop →
        ∃ iterations, budget.exhausted? iterations = some stop := by
  obtain ⟨s₁, r, hrestore⟩ := exists_restore budget (s := ⟨start, 0⟩) hstart hordered
  rw [run, hrestore]
  cases r with
  | infeasible y => simp
  | stopped stop =>
    refine ⟨by simp, fun stop' h => ?_⟩
    cases h
    exact ⟨_, Tableau.exhausted?_of_restoreStep (step_of_iterate hrestore)⟩
  | feasible =>
    obtain ⟨s₂, r', hoptimize⟩ := exists_optimize budget
      (primal_of_restore (s := ⟨start, 0⟩) hstart hordered hrestore) hordered
    simp only [hoptimize]
    cases r' with
    | optimal => constructor <;> (dsimp only; split <;> simp)
    | unbounded ray => simp
    | stopped stop =>
      refine ⟨by simp, fun stop' h => ?_⟩
      cases h
      exact ⟨_, Tableau.exhausted?_of_optimizeStep (step_of_iterate hoptimize)⟩

end StandardForm

namespace Simplex

/-- Neither iterations nor time are limited. -/
def Unlimited (s : Simplex) : Prop :=
  s.parameters.iterationLimit = none ∧ s.parameters.timeLimit.finite? = none

instance (s : Simplex) : Decidable s.Unlimited := inferInstanceAs (Decidable (_ ∧ _))

/-- Without limits no budget is used up. -/
theorem Unlimited.exhausted?_eq_none {s : Simplex} (h : s.Unlimited) (iterations : Nat) :
    s.budget.exhausted? iterations = none := by
  simp [Budget.exhausted?, budget, h.1, h.2]

/-- Whatever basis a solve starts from, the first phase never comes back to the same statuses, and
ends; from where it ends within all bounds, so does the second phase. A solve therefore does not
cycle, and without limits it ends with an optimum, a proof of infeasibility or a ray. -/
theorem solve_terminates (s : Simplex) (hs : s.Uncrossed) :
    NeverRepeats (Tableau.restoreStep s.standardForm s.budget) Progress.statuses ⟨s.startTableau, 0⟩ ∧
    (∃ steps s₁ restored,
      iterate (Tableau.restoreStep s.standardForm s.budget) steps ⟨s.startTableau, 0⟩ =
        (s₁, some restored) ∧
      (restored = .feasible →
        NeverRepeats (Tableau.optimizeStep s.standardForm s.budget) Progress.statuses s₁ ∧
        ∃ steps s₂ optimized,
          iterate (Tableau.optimizeStep s.standardForm s.budget) steps s₁ =
            (s₂, some optimized))) ∧
    s.run.2 ≠ .cycled ∧ (s.Unlimited → ∀ limit, s.run.2 ≠ .stopped limit) := by
  have hstart := s.valid_startTableau
  have hordered := hs.ordered
  obtain ⟨hcycled, hstopped⟩ := StandardForm.run_terminates s.budget
    (finiteEnd? s.parameters.objectiveLimit) hstart hordered
  obtain ⟨s₁, restored, hrestore⟩ := StandardForm.exists_restore s.budget
    (s := ⟨s.startTableau, 0⟩) hstart hordered
  refine ⟨Tableau.Valid.neverRepeats_restoreStep (s := ⟨s.startTableau, 0⟩) hstart hordered,
    ⟨_, s₁, restored, hrestore, ?_⟩, hcycled, ?_⟩
  · rintro rfl
    have hprimal := StandardForm.primal_of_restore (s := ⟨s.startTableau, 0⟩) hstart hordered hrestore
    obtain ⟨s₂, optimized, hoptimize⟩ := StandardForm.exists_optimize s.budget hprimal hordered
    exact ⟨hprimal.neverRepeats_optimizeStep hordered, _, s₂, optimized, hoptimize⟩
  · intro hunlimited limit hlimit
    obtain ⟨iterations, hexhausted⟩ := hstopped limit hlimit
    rw [hunlimited.exhausted?_eq_none] at hexhausted
    cases hexhausted

/-- All pivots of this linear program up to the last one are degenerate. With the largest reduced
cost instead of the smallest variable, the method would go round in a cycle of six pivots. -/
theorem solve_terminates_degenerate :
    let s : Simplex := { empty with
      columns := #[⟨-3/4, ⟨some 0, none⟩, .lower⟩, ⟨150, ⟨some 0, none⟩, .lower⟩,
        ⟨-1/50, ⟨some 0, none⟩, .lower⟩, ⟨6, ⟨some 0, none⟩, .lower⟩]
      rows := #[⟨#[1/4, -60, -1/25, 9], ⟨none, some 0⟩, .basic⟩,
        ⟨#[1/2, -90, -1/50, 3], ⟨none, some 0⟩, .basic⟩,
        ⟨#[0, 0, 1, 0], ⟨none, some 1⟩, .basic⟩] }
    s.Uncrossed ∧ s.Unlimited ∧
      NeverRepeats (Tableau.restoreStep s.standardForm s.budget) Progress.statuses ⟨s.startTableau, 0⟩ ∧
      s.run.2 ≠ .cycled ∧ ∀ limit, s.run.2 ≠ .stopped limit := by
  intro s
  have hs : s.Uncrossed := by decide +kernel
  have hunlimited : s.Unlimited := by decide +kernel
  obtain ⟨hnever, -, hcycled, hstopped⟩ := solve_terminates s hs
  exact ⟨hs, hunlimited, hnever, hcycled, hstopped hunlimited⟩

end Simplex

end CertifiedLp
