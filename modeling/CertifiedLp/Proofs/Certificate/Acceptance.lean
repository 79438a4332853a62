import Mathlib
import CertifiedLp.Proofs.Certificate.Infeasibility

/-!
# Proofs that are accepted

The other direction of the certificates: what is right is accepted. A feasible solution whose dual
values and reduced costs select ends that are attained proves its objective value, because every line
adds as much to the dual bound as to the objective value. Multipliers whose selected sides add up to
more than the columns can reach prove infeasibility.
-/

namespace CertifiedLp

open Extended (finite)

namespace Relaxation

/-- If a multiplier selects an end of an interval, then that end is a given number. -/
def Selects (multiplier : Rat) (interval : Interval) (value : Rat) : Prop :=
  ∀ side, selectedSide? (finite multiplier) = some side → interval.get side = finite value

/-! ## Optimal solutions -/

namespace Findings

/-- Nothing is wrong so far, and the two bounds are rational. -/
def confirmed (primal dual : Rat) : Findings := ⟨true, true, finite primal, finite dual⟩

/-- A line whose selected end is attained adds multiplier times value to the dual bound, and nothing is
wrong with it. -/
theorem examine_confirmed {interval : Interval} {primal dual v y : Rat} (checkPrimal checkDual : Bool)
    (hv : interval.Contains (finite v)) (hselects : Selects y interval v) :
    (confirmed primal dual).examine checkPrimal checkDual interval (finite v) (finite y) =
      confirmed primal (dual + y * v) := by
  have hinside : ¬ (finite v < interval.lower ∨ interval.upper < finite v) := by
    rw [not_or, Extended.lt_iff_not_le, Extended.lt_iff_not_le, not_not, not_not]
    exact hv
  rw [examine, if_neg (by simpa using fun _ => hinside)]
  cases hside : selectedSide? (finite y) with
  | none =>
    obtain rfl := selectedSide?_eq_none hside
    simp
  | some side =>
    simp [confirmed, hselects side hside, Extended.isInfinite, Extended.addProduct_eq]

/-- Nothing is wrong in the end: what is proved is the objective value, and every limit below it. -/
theorem prove_confirmed (cost : Rat) (limit : Option Extended) :
    (confirmed cost cost).prove (finite cost) limit = true ↔ ∀ l, limit = some l → l ≤ finite cost := by
  cases limit with
  | none => simp [prove, confirmed]
  | some l =>
    have hproves : (confirmed cost cost).prove (finite cost) (some l) = decide (l ≤ finite cost) := rfl
    rw [hproves, decide_eq_true_iff]
    simp

end Findings

variable {σ : Type} [Solver σ] {lp : Relaxation σ} {s : Solution} {m : ConstraintMatrix}
variable {E : LpError → Relaxation σ → Prop}

/-- A feasible solution whose dual values and reduced costs select ends that are attained. -/
structure Tight (lp : Relaxation σ) (s : Solution) : Prop where
  isFinite : s.IsFinite
  objective : s.objective = finite (lp.costIn (lp.primalAt s))
  sides : ∀ r ∈ lp.rows, ∀ row, lp.matrix.row? r = some row →
    (solverSides row).Contains (finite (lp.activityIn r (lp.primalAt s)))
  dual : ∀ r ∈ lp.rows, ∀ row, lp.matrix.row? r = some row →
    Selects (lp.dualAt s r) (solverSides row) (lp.activityIn r (lp.primalAt s))
  bounds : ∀ c ∈ lp.columns, (lp.matrix.column c).spec.bounds.Contains (finite (lp.primalAt s c))
  reducedCost : ∀ c ∈ lp.columns,
    Selects (lp.reducedCostAt s c) (lp.matrix.column c).spec.bounds (lp.primalAt s c)

/-- Nothing is wrong with some rows and columns, and their shares of both bounds are known. -/
structure Confirms (lp : Relaxation σ) (s : Solution) (rows : List RowRef) (columns : List ColumnRef)
    (f : Findings) (m : ConstraintMatrix) : Prop where
  sameData : m.without .values = lp.matrix.without .values
  findings : f = .confirmed
    (columns.map fun c => (lp.matrix.column c).spec.objective.rational * lp.primalAt s c).sum
    ((rows.map fun r => lp.dualAt s r * lp.activityIn r (lp.primalAt s)).sum +
      (columns.map fun c => lp.reducedCostAt s c * lp.primalAt s c).sum)

theorem Tight.ends_acceptRow (hs : lp.Tight s) (basis : Basis) (h : lp.Certifiable)
    {rows : List RowRef} {f : Findings} {r : RowRef} {i : Nat} (hi : lp.rows[i]? = some r)
    (hf : lp.Confirms s rows [] f m) :
    Ends (acceptRow s basis f r i) { lp with matrix := m }
      (fun f' t => ∃ m', t = { lp with matrix := m' } ∧ lp.Confirms s (rows ++ [r]) [] f' m') E := by
  have hr : r ∈ lp.rows := Array.mem_of_getElem? hi
  obtain ⟨row, hrow⟩ := h.rowsExist r hr
  refine (ends_acceptRow_exactly basis h hs.isFinite hi hrow hf.sameData).mono_ok ?_
  rintro _ _ ⟨⟨m', rfl, hm'⟩, rfl⟩
  refine ⟨m', rfl, hm', ?_⟩
  rw [hf.findings, Findings.examine_confirmed _ _ (hs.sides r hr row hrow) (hs.dual r hr row hrow)]
  simp

theorem Tight.ends_acceptColumn (hs : lp.Tight s) (basis : Basis) (h : lp.Certifiable)
    {rows : List RowRef} {columns : List ColumnRef} {f : Findings} {c : ColumnRef} {i : Nat}
    (hi : lp.columns[i]? = some c) (hf : lp.Confirms s rows columns f m) :
    Ends (acceptColumn s basis f c i) { lp with matrix := m }
      (fun f' t => ∃ m', t = { lp with matrix := m' } ∧ lp.Confirms s rows (columns ++ [c]) f' m') E := by
  have hc : c ∈ lp.columns := Array.mem_of_getElem? hi
  refine (ends_acceptColumn_exactly basis h hs.isFinite hi hf.sameData).mono_ok ?_
  rintro _ _ ⟨rfl, rfl⟩
  refine ⟨_, rfl, (ConstraintMatrix.without_modifyColumn m c ?_).trans hf.sameData, ?_⟩
  · exact fun _ => rfl
  · have hcost := Extended.finite_rational (h.proper.objective c)
    rw [hf.findings, Findings.examine_confirmed _ _ (hs.bounds c hc) (hs.reducedCost c hc), ← hcost]
    simp [Findings.confirmed, Extended.addProduct_eq, add_assoc]

/-- Such a solution proves its objective value, and every limit that the value attains. -/
theorem Tight.ends_acceptSolution (hs : lp.Tight s) (h : lp.Certifiable)
    (hsolution : Solver.solution lp.solver = .ok s) {basis : Basis}
    (hbasis : Solver.basis lp.solver = .ok basis) {limit : Option Extended}
    (hlimit : ∀ l, limit = some l → l ≤ s.objective) (a : Approximation) (write : Bool) :
    Ends (acceptSolution a write limit) lp
      (fun out t => out.1 = true ∧ ∃ m flags, m.without .values = lp.matrix.without .values ∧
        t = { lp with matrix := m, solverObjective := s.objective, flags })
      fun _ _ => False := by
  refine (ends_acceptSolution_keeps h hsolution (I := lp.Confirms s) ⟨rfl, by simp; rfl⟩
    (fun basis => hs.ends_acceptRow basis h) (fun basis => hs.ends_acceptColumn basis h)
    (fun _ he => nomatch hbasis.symm.trans he) a write limit).mono_ok ?_
  rintro out _ ⟨f, m, hproved, hf, rfl⟩
  refine ⟨?_, m, _, hf.sameData, rfl⟩
  rw [hproved, hf.findings, lp.sum_multipliers_eq_costIn s, hs.objective]
  exact (Findings.prove_confirmed _ _).mpr (hs.objective ▸ hlimit)

/-! ## Proofs of infeasibility -/

section Selected

variable {y a b : Rat} {interval : Interval}

theorem usedSide?_of_selects (h : Selects y interval b) :
    usedSide? (finite y) interval = if y = 0 then none else some (finite b) := by
  rw [usedSide?]
  cases hside : selectedSide? (finite y) with
  | none => simp [selectedSide?_eq_none hside]
  | some side =>
    have hy : y ≠ 0 := by
      rintro rfl
      rw [selectedSide?, Extended.sign_finite] at hside
      simp at hside
    simp [hy, h side hside, Option.filter]

theorem Aggregate.valid_addRow (h : Selects y interval b) (g : Aggregate)
    (items : List (Nat × Extended)) : (g.addRow (finite y) interval items).valid = g.valid := by
  rw [addRow]
  cases hside : selectedSide? (finite y) with
  | none => rfl
  | some side => simp [h side hside, Extended.isInfinite]

/-- What a column contributes at most, it contributes at the bound that the opposite of its coefficient
selects. -/
theorem largestContribution_eq (h : Selects (-a) interval b) :
    largestContribution (finite a) interval = finite (a * b) := by
  rw [largestContribution, Extended.sign_finite]
  rcases lt_trichotomy a 0 with ha | rfl | ha
  · have hlower : interval.lower = finite b := by
      refine h .lower ?_
      rw [selectedSide?, Extended.sign_finite, if_pos (by linarith)]
    rw [if_neg (by linarith), if_pos ha]
    simp [hlower]
  · simp [Extended.zero_def]
  · have hupper : interval.upper = finite b := by
      refine h .upper ?_
      rw [selectedSide?, Extended.sign_finite, if_neg (by linarith), if_pos (by linarith)]
    rw [if_pos ha]
    simp [hupper]

end Selected

/-- The multiplier of a row, at its position in the solver. -/
def multiplierAt (lp : Relaxation σ) (multipliers : Array Extended) (r : RowRef) : Rat :=
  (multipliers.getD (((lp.matrix.row? r).bind (·.solverPosition)).getD 0) 0).rational

/-- The coefficient of a column in the sum of the rows, each taken times its multiplier. -/
def combinedIn (lp : Relaxation σ) (multipliers : Array Extended) (c : ColumnRef) : Rat :=
  (lp.rows.toList.map fun r => lp.coefficientIn c r * lp.multiplierAt multipliers r).sum

/-- The dual values are multipliers. -/
theorem dualAt_eq (lp : Relaxation σ) (s : Solution) (r : RowRef) :
    lp.dualAt s r = lp.multiplierAt s.dual r := rfl

theorem reducedCostAt_eq (lp : Relaxation σ) (s : Solution) (c : ColumnRef) :
    lp.reducedCostAt s c = (lp.matrix.column c).spec.objective.rational - lp.combinedIn s.dual c := rfl

/-- Multipliers whose selected sides add up to more than the sum of the rows can reach. -/
structure Refutation (lp : Relaxation σ) (multipliers : Array Extended) (side : RowRef → Rat)
    (bound : ColumnRef → Rat) : Prop where
  isFinite : ∀ v ∈ multipliers, v.isFinite = true
  sides : ∀ r ∈ lp.rows, ∀ row, lp.matrix.row? r = some row →
    Selects (lp.multiplierAt multipliers r) (solverSides row) (side r)
  bounds : ∀ c ∈ lp.columns,
    Selects (-lp.combinedIn multipliers c) (lp.matrix.column c).spec.bounds (bound c)
  gap : (lp.columns.toList.map fun c => lp.combinedIn multipliers c * bound c).sum <
    (lp.rows.toList.map fun r => lp.multiplierAt multipliers r * side r).sum

namespace Refutation

variable {multipliers : Array Extended} {side : RowRef → Rat} {bound : ColumnRef → Rat}
variable {ps : List (RowRef × Nat)} {p : RowRef × Nat}
variable (hr : lp.Refutation multipliers side bound) (h : lp.Certifiable)

include hr h

theorem getD_eq (hp : p ∈ lp.rows.toList.zipIdx) :
    multipliers.getD p.2 0 = finite (lp.multiplierAt multipliers p.1) := by
  have hget := List.mk_mem_zipIdx_iff_getElem?.mp hp
  rw [Array.getElem?_toList] at hget
  obtain ⟨row, hrow⟩ := h.rowsExist p.1 (Array.mem_of_getElem? hget)
  rw [multiplierAt, hrow, Option.bind_some, h.solverPosition_row hrow hget, Option.getD_some,
    Extended.finite_rational (isFinite_getD hr.isFinite p.2)]

theorem usedAt?_eq (hp : p ∈ lp.rows.toList.zipIdx) : lp.usedAt? multipliers p =
    if lp.multiplierAt multipliers p.1 = 0 then none else some (finite (side p.1)) := by
  have hmem := mem_rows_of_mem_zipIdx hp
  obtain ⟨row, hrow⟩ := h.rowsExist p.1 hmem
  rw [usedAt?, hrow, Option.bind_some, hr.getD_eq h hp,
    usedSide?_of_selects (hr.sides p.1 hmem row hrow)]

theorem weightAt_eq (hp : p ∈ lp.rows.toList.zipIdx) :
    lp.weightAt multipliers p = lp.multiplierAt multipliers p.1 := by
  rw [weightAt, hr.usedAt?_eq h hp, hr.getD_eq h hp]
  by_cases hzero : lp.multiplierAt multipliers p.1 = 0 <;> simp [hzero]

theorem valid_addUp (hps : ∀ p ∈ ps, p ∈ lp.rows.toList.zipIdx) :
    (lp.addUp multipliers ps).valid = true := by
  induction ps using List.reverseRecOn with
  | nil => rfl
  | append_singleton ps p ih =>
    have hp := hps p (by simp)
    have hmem := mem_rows_of_mem_zipIdx hp
    obtain ⟨row, hrow⟩ := h.rowsExist p.1 hmem
    rw [addUp_concat hrow, hr.getD_eq h hp,
      Aggregate.valid_addRow (hr.sides p.1 hmem row hrow)]
    exact ih fun q hq => hps q (by simp [hq])

/-- Every row adds multiplier times side to the right side. -/
theorem sum_sideTerms (hps : ∀ p ∈ ps, p ∈ lp.rows.toList.zipIdx) :
    Extended.sum (lp.sideTerms multipliers ps) =
      finite (ps.map fun p => lp.multiplierAt multipliers p.1 * side p.1).sum := by
  rw [Extended.sum_eq_finite fun v hv => isFinite_of_mem_sideTerms hr.isFinite hv]
  congr 1
  induction ps with
  | nil => rfl
  | cons p ps ih =>
    have hp := hps p (by simp)
    rw [sideTerms, List.flatMap_cons, List.map_append, List.sum_append, List.map_cons,
      List.sum_cons, ← ih fun q hq => hps q (by simp [hq]), hr.usedAt?_eq h hp, hr.getD_eq h hp]
    congr 1
    by_cases hzero : lp.multiplierAt multipliers p.1 = 0 <;> simp [hzero]

/-- Every column contributes at most what it does at its selected bound. -/
theorem contributions_eq : lp.contributions multipliers =
    lp.columns.toList.map fun c => finite (lp.combinedIn multipliers c * bound c) := by
  have hcombined {c : ColumnRef} {i : Nat} (hi : lp.columns[i]? = some c) :
      Extended.sum (lp.coefficientTerms multipliers lp.rows.toList.zipIdx i) =
        finite (lp.combinedIn multipliers c) := by
    rw [h.sum_coefficientTerms hr.isFinite hi fun _ => mem_rows_of_mem_zipIdx, combinedIn]
    congr 2
    rw [← List.zipIdx_map_fst 0 lp.rows.toList, List.map_map, List.zipIdx_map_fst]
    refine List.map_congr_left fun p hp => ?_
    rw [hr.weightAt_eq h hp]
    rfl
  rw [contributions, ← List.zipIdx_map_fst 0 lp.columns.toList, List.map_map, List.zipIdx_map_fst]
  refine List.map_congr_left fun p hp => ?_
  have hget := List.mk_mem_zipIdx_iff_getElem?.mp hp
  rw [Array.getElem?_toList] at hget
  change largestContribution _ _ = _
  rw [hcombined hget, largestContribution_eq (hr.bounds p.1 (Array.mem_of_getElem? hget))]
  rfl

/-- The rows add up to an inequality that no point within the bounds satisfies. -/
theorem refutes : (lp.addUp multipliers lp.rows.toList.zipIdx).refutes
    (lp.columns.toList.map fun c => (lp.matrix.column c).spec.bounds) = true := by
  have hadded : lp.AddedUp multipliers lp.rows.toList.zipIdx
      (lp.addUp multipliers lp.rows.toList.zipIdx) :=
    addedUp_addUp fun p hp => h.rowsExist p.1 (mem_rows_of_mem_zipIdx hp)
  have hsum : (lp.rows.toList.zipIdx.map fun p =>
      lp.multiplierAt multipliers p.1 * side p.1).sum =
      (lp.rows.toList.map fun r => lp.multiplierAt multipliers r * side r).sum := by
    conv_rhs => rw [← List.zipIdx_map_fst 0 lp.rows.toList, List.map_map]
    rfl
  have hlargest : Extended.sum (lp.contributions multipliers) =
      finite (lp.columns.toList.map fun c => lp.combinedIn multipliers c * bound c).sum := by
    rw [hr.contributions_eq h, ← Extended.sum_map_finite, List.map_map]
    rfl
  rw [Aggregate.refutes, hadded.contributions_eq, hlargest, hadded.side,
    hr.sum_sideTerms h fun _ hp => hp, hsum, hr.valid_addUp h fun _ hp => hp]
  simpa using hr.gap

/-- Such multipliers prove infeasibility. -/
theorem ends_acceptFarkas (hmultipliers : Solver.farkas lp.solver = .ok multipliers)
    (a : Approximation) (write : Bool) :
    Ends (acceptFarkas a write) lp (fun out _ => out.1 = true) fun _ _ => False :=
  (ends_acceptFarkas_exactly h hmultipliers a write).mono_ok fun _ _ hout =>
    hout.trans (hr.refutes h)

end Refutation

end Relaxation

end CertifiedLp
