import Mathlib
import CertifiedLp.Proofs.Simplex.Moves

/-!
# Both phases

What one step of each phase does, what it preserves, and from this how a run can end. Every tableau
of a run is valid. If no ends cross, the second phase starts within all bounds, and a step of it
goes no farther than to the first block, so it stays there.

`StandardForm.run_ends` puts this together: for each outcome of a run it says what the last tableau
is like, and it is all that the certificates need to know about the way to it.
-/

namespace CertifiedLp

section Iterate

variable {σ ρ : Type} {step : σ → σ ⊕ ρ} {fuel : Nat} {s s' : σ} {result : Option ρ} {r : ρ}

/-- What every step preserves holds at the end of a repetition. -/
theorem iterate_keeps {P : σ → Prop} (hstep : ∀ s s', P s → step s = .inl s' → P s')
    (hs : P s) (h : iterate step fuel s = (s', result)) : P s' := by
  induction fuel generalizing s with
  | zero => exact (Prod.mk.inj h).1 ▸ hs
  | succ fuel ih =>
    rw [iterate] at h
    split at h
    · next hnext => exact ih (hstep s _ hs hnext) h
    · exact (Prod.mk.inj h).1 ▸ hs

/-- The result of a repetition is that of the step at its end. -/
theorem step_of_iterate (h : iterate step fuel s = (s', some r)) : step s' = .inr r := by
  induction fuel generalizing s with
  | zero => cases h
  | succ fuel ih =>
    rw [iterate] at h
    split at h
    · exact ih h
    · next hdone =>
      obtain ⟨rfl, hresult⟩ := Prod.mk.inj h
      exact Option.some.inj hresult ▸ hdone

end Iterate

namespace Tableau

variable {m n : Nat} {p : StandardForm m n} {t : Tableau m n} {budget : Budget}
variable {s s' : Progress m n} {entering j : Fin (n + m)} {increase : Bool} {b : Block m n}

/-! ## The first phase -/

/-- A step lets a violating variable leave for the violated end. -/
theorem restoreStep_eq_inl (h : restoreStep p budget s = .inl s') :
    ∃ v entering, s.tableau.firstViolation? p = some v ∧
      s.tableau.firstNonbasic? (s.tableau.repairs p v) = some entering ∧
      budget.exhausted? s.iterations = none ∧
      s' = ⟨s.tableau.pivot v.row entering v.side.status, s.iterations + 1⟩ := by
  rw [restoreStep] at h
  split at h
  · cases h
  · next v hv =>
    split at h
    · cases h
    · next entering hentering =>
      split at h
      · cases h
      · next hbudget => exact ⟨v, entering, hv, hentering, hbudget, (Sum.inl.inj h).symm⟩

theorem firstViolation?_of_feasible (h : restoreStep p budget s = .inr .feasible) :
    s.tableau.firstViolation? p = none := by
  rw [restoreStep] at h
  split at h
  · next hv => exact hv
  · split at h
    · cases h
    · split at h <;> cases h

/-- The phase ends with multipliers where nothing repairs the violation. -/
theorem restoreStep_eq_infeasible {y : Vector Rat m}
    (h : restoreStep p budget s = .inr (.infeasible y)) :
    ∃ v, s.tableau.firstViolation? p = some v ∧
      s.tableau.firstNonbasic? (s.tableau.repairs p v) = none ∧ y = s.tableau.multipliers v := by
  rw [restoreStep] at h
  split at h
  · cases h
  · next v hv =>
    split at h
    · next hnone => exact ⟨v, hv, hnone, (Restored.infeasible.inj (Sum.inr.inj h)).symm⟩
    · split at h <;> cases h

theorem Valid.restoreStep (h : s.tableau.Valid p) (hstep : restoreStep p budget s = .inl s') :
    s'.tableau.Valid p := by
  obtain ⟨v, entering, hv, hentering, -, rfl⟩ := restoreStep_eq_inl hstep
  obtain ⟨hnonbasic, hrepairs⟩ := firstNonbasic?_eq_some hentering
  obtain ⟨bound, hbound, -⟩ := Bounds.violated?_eq_some (violated?_of_firstViolation? hv)
  exact h.pivot (coefficient_ne_zero_of_repairs hrepairs) hnonbasic
    (Option.isSome_of_eq_some hbound)

/-! ## The second phase -/

/-- The direction in which a variable improves the objective. -/
def improvingDirection (p : StandardForm m n) (t : Tableau m n) (j : Fin (n + m)) : Bool :=
  (reducedCosts p t).get j < 0

/-- An improving variable may move in a direction in which the objective decreases. -/
theorem improving?_eq_some (h : t.improving? p = some j) : t.statusOf j ≠ .basic ∧
    (p.boundsOf j).canMove (t.statusOf j) (t.improvingDirection p j) = true ∧
    (reducedCosts p t).get j * pace (t.improvingDirection p j) < 0 := by
  obtain ⟨hnonbasic, htest⟩ := firstNonbasic?_eq_some h
  refine ⟨hnonbasic, ?_⟩
  rw [Bool.or_eq_true, Bool.and_eq_true, Bool.and_eq_true, decide_eq_true_eq,
    decide_eq_true_eq] at htest
  rcases htest with ⟨hneg, hmove⟩ | ⟨hpos, hmove⟩
  · have hincrease : t.improvingDirection p j = true := decide_eq_true hneg
    rw [hincrease]
    exact ⟨hmove, by simpa [pace] using hneg⟩
  · have hdecrease : t.improvingDirection p j = false := decide_eq_false hpos.not_gt
    rw [hdecrease]
    exact ⟨hmove, by simpa [pace] using hpos⟩

/-- Without an improving variable, each one is stuck in the direction that its reduced cost asks
for. -/
theorem stuck_of_improving?_eq_none (h : t.improving? p = none) (hj : t.statusOf j ≠ .basic) :
    (p.boundsOf j).Stuck (t.statusOf j) ((reducedCosts p t).get j) :=
  Bounds.stuck_of_test_eq_false (firstNonbasic?_eq_none h hj)

/-- The variables before the first improving one are stuck, too. -/
theorem stuck_of_lt_improving? (h : t.improving? p = some entering) (hlt : j < entering)
    (hj : t.statusOf j ≠ .basic) :
    (p.boundsOf j).Stuck (t.statusOf j) ((reducedCosts p t).get j) :=
  Bounds.stuck_of_test_eq_false (firstNonbasic?_eq_false_of_lt h hlt hj)

/-- The tableau at the end of a move up to a block. -/
def moveTo (t : Tableau m n) (entering : Fin (n + m)) (b : Block m n) : Tableau m n :=
  match b.row? with
  | none => t.flip entering
  | some (k, side) => t.pivot k entering side.status

/-- A step moves an improving variable up to the first block. -/
theorem optimizeStep_eq_inl (h : optimizeStep p budget s = .inl s') :
    ∃ entering b, s.tableau.improving? p = some entering ∧
      s.tableau.firstBlock? p entering (s.tableau.improvingDirection p entering) = some b ∧
      budget.exhausted? s.iterations = none ∧
      s' = ⟨s.tableau.moveTo entering b, s.iterations + 1⟩ := by
  rw [optimizeStep] at h
  dsimp only at h
  split at h
  · cases h
  · next entering hentering =>
    split at h
    · cases h
    · next hbudget =>
      split at h
      · cases h
      · next hblock => exact ⟨entering, _, hentering, hblock, hbudget, (Sum.inl.inj h).symm⟩
      · next hblock => exact ⟨entering, _, hentering, hblock, hbudget, (Sum.inl.inj h).symm⟩

theorem improving?_of_optimal (h : optimizeStep p budget s = .inr .optimal) :
    s.tableau.improving? p = none := by
  rw [optimizeStep] at h
  dsimp only at h
  split at h
  · next hnone => exact hnone
  · split at h
    · cases h
    · split at h <;> cases h

/-- The phase ends with a ray where nothing blocks an improving variable. -/
theorem optimizeStep_eq_unbounded {r : Vector Rat n}
    (h : optimizeStep p budget s = .inr (.unbounded r)) :
    ∃ entering, s.tableau.improving? p = some entering ∧
      s.tableau.firstBlock? p entering (s.tableau.improvingDirection p entering) = none ∧
      r = s.tableau.ray entering (s.tableau.improvingDirection p entering) := by
  rw [optimizeStep] at h
  dsimp only at h
  split at h
  · cases h
  · next entering hentering =>
    split at h
    · cases h
    · split at h
      · next hblock =>
        exact ⟨entering, hentering, hblock, (Optimized.unbounded.inj (Sum.inr.inj h)).symm⟩
      · cases h
      · cases h

/-- A move up to a block leads to a valid tableau, and its values are those that the move ends
at. -/
theorem Valid.moveTo (h : t.Valid p) (hentering : t.statusOf entering ≠ .basic)
    (hmove : (p.boundsOf entering).canMove (t.statusOf entering) increase = true)
    (hb : Blocks p t entering increase b) :
    (t.moveTo entering b).Valid p ∧
      values p (t.moveTo entering b) =
        advance (values p t) (t.direction entering increase) b.distance := by
  rcases hb with ⟨width, hwidth, rfl⟩ | ⟨k, hk⟩
  · exact ⟨h.flip hentering hmove hwidth, values_flip h hentering hmove hwidth⟩
  · obtain ⟨side, bound, hbound, rfl, hrate⟩ := rowBlock?_eq_some.mp hk
    have hcoefficient : t.coefficient k entering ≠ 0 := by
      intro hzero
      rw [rate_eq, hzero, zero_mul, neg_zero] at hrate
      cases side <;> exact lt_irrefl 0 hrate
    exact ⟨h.pivot hcoefficient hentering (Option.isSome_of_eq_some hbound),
      values_pivot h hcoefficient hentering hbound increase⟩

/-- Up to the first block, a move stays within all bounds. -/
theorem Primal.moveTo (h : t.Primal p) (hentering : t.statusOf entering ≠ .basic)
    (hmove : (p.boundsOf entering).canMove (t.statusOf entering) increase = true)
    (hb : t.firstBlock? p entering increase = some b) : (t.moveTo entering b).Primal p := by
  obtain ⟨hblocks, hnearest⟩ := blocks_of_firstBlock? hb
  obtain ⟨hvalid, hvalues⟩ := h.toValid.moveTo hentering hmove hblocks
  refine ⟨hvalid, fun j => ?_⟩
  rw [hvalues]
  exact h.contains_advance hmove (h.distance_nonneg hmove hblocks) hnearest j

theorem Valid.optimizeStep (h : s.tableau.Valid p) (hstep : optimizeStep p budget s = .inl s') :
    s'.tableau.Valid p := by
  obtain ⟨entering, b, hentering, hb, -, rfl⟩ := optimizeStep_eq_inl hstep
  obtain ⟨hnonbasic, hmove, -⟩ := improving?_eq_some hentering
  exact (h.moveTo hnonbasic hmove (blocks_of_firstBlock? hb).1).1

theorem Primal.optimizeStep (h : s.tableau.Primal p) (hstep : optimizeStep p budget s = .inl s') :
    s'.tableau.Primal p := by
  obtain ⟨entering, b, hentering, hb, -, rfl⟩ := optimizeStep_eq_inl hstep
  obtain ⟨hnonbasic, hmove, -⟩ := improving?_eq_some hentering
  exact h.moveTo hnonbasic hmove hb

/-- A step of the second phase does not raise the objective. -/
theorem objective_optimizeStep_le (h : s.tableau.Primal p)
    (hstep : optimizeStep p budget s = .inl s') :
    p.objective (values p s'.tableau) ≤ p.objective (values p s.tableau) := by
  obtain ⟨entering, b, hentering, hb, -, rfl⟩ := optimizeStep_eq_inl hstep
  obtain ⟨hnonbasic, hmove, hdescent⟩ := improving?_eq_some hentering
  obtain ⟨hblocks, -⟩ := blocks_of_firstBlock? hb
  rw [(h.toValid.moveTo hnonbasic hmove hblocks).2, objective_advance,
    h.objective_direction _ hnonbasic]
  have hdistance := h.distance_nonneg hmove hblocks
  have hchange := mul_nonpos_of_nonneg_of_nonpos hdistance hdescent.le
  linarith

end Tableau

/-! ## Runs -/

namespace StandardForm

variable {m n : Nat} {p : StandardForm m n} {budget : Budget} {limit : Option Rat}
variable {start : Tableau m n} {s s' : Progress m n}

/-- No variable has ends that cross. -/
def Ordered (p : StandardForm m n) : Prop := ∀ j, (p.boundsOf j).Ordered

/-- What the last tableau of a run is like. -/
def Ends (p : StandardForm m n) (limit : Option Rat) (t : Tableau m n) : Outcome m n → Prop
  | .optimal => (p.Ordered → t.Primal p) ∧ t.improving? p = none ∧ p.exceeds limit t = false
  | .objectiveLimit => (p.Ordered → t.Primal p) ∧ t.improving? p = none ∧ p.exceeds limit t = true
  | .infeasible y => ∃ v, t.firstViolation? p = some v ∧
      t.firstNonbasic? (t.repairs p v) = none ∧ y = t.multipliers v
  | .unbounded r => (p.Ordered → t.Primal p) ∧ ∃ entering, t.improving? p = some entering ∧
      t.firstBlock? p entering (t.improvingDirection p entering) = none ∧
      r = t.ray entering (t.improvingDirection p entering)
  | .stopped _ | .cycled => True

theorem valid_restore {restored : Option (Tableau.Restored m)} (h : s.tableau.Valid p)
    (hrun : p.restore budget s = (s', restored)) : s'.tableau.Valid p :=
  iterate_keeps (P := fun s : Progress m n => s.tableau.Valid p)
    (fun _ _ hs hstep => hs.restoreStep hstep) h hrun

theorem valid_optimize {optimized : Option (Tableau.Optimized n)} (h : s.tableau.Valid p)
    (hrun : p.optimize budget s = (s', optimized)) : s'.tableau.Valid p :=
  iterate_keeps (P := fun s : Progress m n => s.tableau.Valid p)
    (fun _ _ hs hstep => hs.optimizeStep hstep) h hrun

theorem primal_optimize {optimized : Option (Tableau.Optimized n)} (h : s.tableau.Primal p)
    (hrun : p.optimize budget s = (s', optimized)) : s'.tableau.Primal p :=
  iterate_keeps (P := fun s : Progress m n => s.tableau.Primal p)
    (fun _ _ hs hstep => hs.optimizeStep hstep) h hrun

/-- A run ends with a valid tableau that is as its outcome says. -/
theorem run_ends (budget : Budget) (limit : Option Rat) (hstart : start.Valid p) :
    (p.run budget limit start).1.tableau.Valid p ∧
      p.Ends limit (p.run budget limit start).1.tableau (p.run budget limit start).2 := by
  rw [run]
  rcases hrestore : p.restore budget ⟨start, 0⟩ with ⟨s, restored⟩
  have hvalid : s.tableau.Valid p := valid_restore (s := ⟨start, 0⟩) hstart hrestore
  cases restored with
  | none => exact ⟨hvalid, trivial⟩
  | some restored =>
    have hlast : Tableau.restoreStep p budget s = .inr restored := step_of_iterate hrestore
    cases restored with
    | infeasible y => exact ⟨hvalid, Tableau.restoreStep_eq_infeasible hlast⟩
    | stopped reason => exact ⟨hvalid, trivial⟩
    | feasible =>
      rcases hoptimize : p.optimize budget s with ⟨s', optimized⟩
      have hvalid' : s'.tableau.Valid p := valid_optimize hvalid hoptimize
      have hprimal (hordered : p.Ordered) : s'.tableau.Primal p :=
        primal_optimize (hvalid.primal hordered (Tableau.firstViolation?_of_feasible hlast))
          hoptimize
      dsimp only
      rw [hoptimize]
      cases optimized with
      | none => exact ⟨hvalid', trivial⟩
      | some optimized =>
        have hlast' : Tableau.optimizeStep p budget s' = .inr optimized := step_of_iterate hoptimize
        cases optimized with
        | unbounded r => exact ⟨hvalid', hprimal, Tableau.optimizeStep_eq_unbounded hlast'⟩
        | stopped reason => exact ⟨hvalid', trivial⟩
        | optimal =>
          refine ⟨hvalid', ?_⟩
          have himproving := Tableau.improving?_of_optimal hlast'
          dsimp only
          split
          · next hexceeds => exact ⟨hprimal, himproving, hexceeds⟩
          · next hexceeds => exact ⟨hprimal, himproving, Bool.eq_false_iff.mpr hexceeds⟩

end StandardForm

end CertifiedLp
