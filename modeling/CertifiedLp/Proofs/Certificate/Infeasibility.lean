import Mathlib
import CertifiedLp.Proofs.Certificate.Duality

/-!
# Proved infeasibility

The multipliers of a proof of infeasibility add up the rows to one inequality, whatever they are.
Every feasible point satisfies it, because each row is taken with the side that its multiplier
selects, and a row of which that side is infinite is left out. So there is no feasible point if the
left side cannot become as large as the right side within the bounds.

What is added up never holds opposite infinities: the terms of the right side and of the
coefficients are rational, and no column contributes negative infinity to the largest left side.
-/

namespace CertifiedLp

open Extended (finite SumsWell)

namespace Relaxation

/-! ## One row -/

/-- The side that a row is added up with: the one that its multiplier selects, if it is finite. -/
def usedSide? (multiplier : Extended) (sides : Interval) : Option Extended :=
  ((selectedSide? multiplier).map sides.get).filter (·.isFinite)

theorem usedSide?_eq_some {multiplier side : Extended} {sides : Interval}
    (h : usedSide? multiplier sides = some side) :
    side.isFinite = true ∧ ∃ selected, selectedSide? multiplier = some selected ∧
      sides.get selected = side := by
  rw [usedSide?, Option.filter_eq_some_iff, Option.map_eq_some_iff] at h
  exact ⟨h.2, h.1⟩

namespace Aggregate

theorem addRow_of_some {g : Aggregate} {multiplier side : Extended} {sides : Interval}
    (h : usedSide? multiplier sides = some side) (items : List (Nat × Extended)) :
    g.addRow multiplier sides items = { g with
      side := g.side.addProduct multiplier side
      coefficients := items.foldl (fun cs (position, a) =>
        cs.modify position (·.addProduct multiplier a)) g.coefficients } := by
  obtain ⟨hfinite, selected, hselected, rfl⟩ := usedSide?_eq_some h
  rw [addRow, hselected]
  simp [Extended.isInfinite, hfinite]

/-- A row that is not used leaves what is added up as it is. -/
theorem addRow_of_none {g : Aggregate} {multiplier : Extended} {sides : Interval}
    (h : usedSide? multiplier sides = none) (items : List (Nat × Extended)) :
    (g.addRow multiplier sides items).side = g.side ∧
      (g.addRow multiplier sides items).coefficients = g.coefficients := by
  rw [addRow]
  rw [usedSide?, Option.filter_eq_none_iff] at h
  cases hselected : selectedSide? multiplier with
  | none => exact ⟨rfl, rfl⟩
  | some selected =>
    have hinfinite : (sides.get selected).isInfinite = true := by
      have := h (sides.get selected) (by simp [hselected])
      simpa using this
    simp [hinfinite]

end Aggregate

/-- Adding items at their positions adds to every position what the items have for it. -/
theorem getElem?_foldl_modify (items : List (Nat × Extended)) (multiplier : Extended)
    (coefficients : Array Extended) (i : Nat) :
    (items.foldl (fun cs (position, a) => cs.modify position (·.addProduct multiplier a))
      coefficients)[i]? = coefficients[i]?.map fun q =>
        ((items.filter (·.1 = i)).map (multiplier * ·.2)).foldl (· + ·) q := by
  induction items generalizing coefficients with
  | nil => simp
  | cons item items ih =>
    rw [List.foldl_cons, ih, Array.getElem?_modify]
    by_cases h : item.1 = i
    · rcases coefficients[i]? with _ | q
      · simp [h]
      · simp [h, Extended.addProduct_eq]
    · simp [h]

variable {σ : Type} [Solver σ] {lp : Relaxation σ} {multipliers : Array Extended}
variable {c : ColumnRef} {r : RowRef} {row : Row} {i : Nat}

/-! ## All rows -/

/-- The side that a row at a position of the solver is added up with. -/
def usedAt? (lp : Relaxation σ) (multipliers : Array Extended) (p : RowRef × Nat) :
    Option Extended :=
  (lp.matrix.row? p.1).bind fun row => usedSide? (multipliers.getD p.2 0) (solverSides row)

/-- What is added up to the right side of the inequality. -/
def sideTerms (lp : Relaxation σ) (multipliers : Array Extended) (ps : List (RowRef × Nat)) :
    List Extended :=
  ps.flatMap fun p =>
    ((lp.usedAt? multipliers p).map (multipliers.getD p.2 0 * ·)).toList

/-- What is added up to the coefficient of the column at a position of the solver. -/
def coefficientTerms (lp : Relaxation σ) (multipliers : Array Extended)
    (ps : List (RowRef × Nat)) (position : Nat) : List Extended :=
  ps.flatMap fun p =>
    match lp.usedAt? multipliers p, lp.matrix.row? p.1 with
    | some _, some row =>
      ((rowItems lp.matrix row).filter (·.1 = position)).map (multipliers.getD p.2 0 * ·.2)
    | _, _ => []

/-- What is added up to the largest left side within the bounds. -/
def contributions (lp : Relaxation σ) (multipliers : Array Extended) : List Extended :=
  lp.columns.toList.zipIdx.map fun (c, position) =>
    largestContribution
      (Extended.sum (lp.coefficientTerms multipliers lp.rows.toList.zipIdx position))
      (lp.matrix.column c).spec.bounds

/-- What the inequality is after some rows. -/
structure AddedUp (lp : Relaxation σ) (multipliers : Array Extended) (ps : List (RowRef × Nat))
    (g : Aggregate) : Prop where
  side : g.side = Extended.sum (lp.sideTerms multipliers ps)
  size : g.coefficients.size = lp.columns.size
  coefficient : ∀ i, i < lp.columns.size →
    g.coefficients[i]? = some (Extended.sum (lp.coefficientTerms multipliers ps i))

theorem AddedUp.start (lp : Relaxation σ) (multipliers : Array Extended) :
    lp.AddedUp multipliers [] (.start lp.columns.size) where
  side := rfl
  size := by simp [Aggregate.start]
  coefficient i hi := by simp [Aggregate.start, coefficientTerms, hi]

theorem AddedUp.addRow {ps : List (RowRef × Nat)} {g : Aggregate}
    (hg : lp.AddedUp multipliers ps g) (hrow : lp.matrix.row? r = some row) (i : Nat) :
    lp.AddedUp multipliers (ps ++ [(r, i)])
      (g.addRow (multipliers.getD i 0) (solverSides row) (rowItems lp.matrix row)) := by
  have hused : lp.usedAt? multipliers (r, i) =
      usedSide? (multipliers.getD i 0) (solverSides row) := by
    rw [usedAt?, hrow, Option.bind_some]
  cases hside : usedSide? (multipliers.getD i 0) (solverSides row) with
  | none =>
    obtain ⟨hkeepSide, hkeep⟩ := Aggregate.addRow_of_none (g := g) hside (rowItems lp.matrix row)
    rw [hside] at hused
    constructor
    · rw [hkeepSide, hg.side]
      simp [sideTerms, hused]
    · rw [hkeep, hg.size]
    · intro j hj
      rw [hkeep, hg.coefficient j hj]
      simp [coefficientTerms, hused]
  | some side =>
    rw [Aggregate.addRow_of_some hside]
    rw [hside] at hused
    constructor
    · dsimp only
      rw [hg.side, sideTerms, sideTerms, List.flatMap_append, Extended.sum_append]
      simp [hused, Extended.addProduct_eq]
    · have hsize (items : List (Nat × Extended)) (cs : Array Extended) :
          (items.foldl (fun cs (position, a) =>
            cs.modify position (·.addProduct (multipliers.getD i 0) a)) cs).size = cs.size := by
        induction items generalizing cs with
        | nil => rfl
        | cons item items ih => rw [List.foldl_cons, ih, Array.size_modify]
      exact (hsize _ _).trans hg.size
    · intro j hj
      dsimp only
      rw [getElem?_foldl_modify, hg.coefficient j hj, coefficientTerms, coefficientTerms,
        List.flatMap_append, Extended.sum_append]
      simp [hused, hrow]

/-- The inequality that some rows add up to, each with the multiplier at its position. -/
def addUp (lp : Relaxation σ) (multipliers : Array Extended) (ps : List (RowRef × Nat)) :
    Aggregate :=
  ps.foldl (fun g p => (lp.matrix.row? p.1).elim g fun row =>
    g.addRow (multipliers.getD p.2 0) (solverSides row) (rowItems lp.matrix row))
    (.start lp.columns.size)

theorem addUp_concat (hrow : lp.matrix.row? r = some row) (ps : List (RowRef × Nat)) (i : Nat) :
    lp.addUp multipliers (ps ++ [(r, i)]) = (lp.addUp multipliers ps).addRow (multipliers.getD i 0)
      (solverSides row) (rowItems lp.matrix row) := by
  rw [addUp, List.foldl_append, List.foldl_cons, List.foldl_nil, hrow]
  rfl

theorem addedUp_addUp {ps : List (RowRef × Nat)}
    (hps : ∀ p ∈ ps, ∃ row, lp.matrix.row? p.1 = some row) :
    lp.AddedUp multipliers ps (lp.addUp multipliers ps) := by
  induction ps using List.reverseRecOn with
  | nil => exact .start lp multipliers
  | append_singleton ps p ih =>
    obtain ⟨row, hrow⟩ := hps p (by simp)
    rw [addUp_concat hrow]
    exact (ih fun q hq => hps q (by simp [hq])).addRow hrow p.2

/-! ## The inequality over the active linear program -/

/-- The multiplier of a row, if the row is used. -/
def weightAt (lp : Relaxation σ) (multipliers : Array Extended) (p : RowRef × Nat) : Rat :=
  if (lp.usedAt? multipliers p).isSome then (multipliers.getD p.2 0).rational else 0

theorem isFinite_mul {x y : Extended} (hx : x.isFinite = true) (hy : y.isFinite = true) :
    (x * y).isFinite = true := by
  obtain ⟨a, rfl⟩ := Extended.isFinite_iff.mp hx
  obtain ⟨b, rfl⟩ := Extended.isFinite_iff.mp hy
  rfl

theorem isFinite_of_mem_sideTerms (hm : ∀ v ∈ multipliers, v.isFinite = true)
    {ps : List (RowRef × Nat)} {v : Extended} (hv : v ∈ lp.sideTerms multipliers ps) :
    v.isFinite = true := by
  obtain ⟨p, -, hp⟩ := List.mem_flatMap.mp hv
  rw [Option.mem_toList, Option.map_eq_some_iff] at hp
  obtain ⟨side, hside, rfl⟩ := hp
  obtain ⟨row, -, hused⟩ := Option.bind_eq_some_iff.mp hside
  exact isFinite_mul (isFinite_getD hm p.2) (usedSide?_eq_some hused).1

theorem Certifiable.isFinite_of_mem_coefficientTerms (h : lp.Certifiable)
    (hm : ∀ v ∈ multipliers, v.isFinite = true) {ps : List (RowRef × Nat)} {v : Extended}
    (hv : v ∈ lp.coefficientTerms multipliers ps i) : v.isFinite = true := by
  obtain ⟨p, -, hp⟩ := List.mem_flatMap.mp hv
  split at hp
  · next row _ hrow =>
    obtain ⟨item, hitem, rfl⟩ := List.mem_map.mp hp
    exact isFinite_mul (isFinite_getD hm p.2)
      (h.isFinite_of_mem_rowItems hrow (List.mem_filter.mp hitem).1)
  · cases hp

/-- The right side is at most what the used rows give at a feasible point. -/
theorem Certifiable.sum_sideTerms_le (h : lp.Certifiable)
    (hm : ∀ v ∈ multipliers, v.isFinite = true) {x : ColumnRef → Rat} (hx : lp.IsFeasible x)
    {ps : List (RowRef × Nat)} (hps : ∀ p ∈ ps, p.1 ∈ lp.rows) :
    ((lp.sideTerms multipliers ps).map (·.rational)).sum ≤
      (ps.map fun p => lp.weightAt multipliers p * lp.activityIn p.1 x).sum := by
  induction ps with
  | nil => simp [sideTerms]
  | cons p ps ih =>
    have hp := hps p (by simp)
    obtain ⟨row, hrow⟩ := h.rowsExist p.1 hp
    obtain ⟨y, hy⟩ := Extended.isFinite_iff.mp (isFinite_getD hm p.2)
    have hone : (((lp.usedAt? multipliers p).map (multipliers.getD p.2 0 * ·)).toList.map
        (·.rational)).sum ≤ lp.weightAt multipliers p * lp.activityIn p.1 x := by
      have hused : lp.usedAt? multipliers p = usedSide? (finite y) (solverSides row) := by
        rw [usedAt?, hrow, Option.bind_some, hy]
      cases hside : usedSide? (finite y) (solverSides row) with
      | none => simp [weightAt, hused, hside]
      | some side =>
        obtain ⟨hfinite, selected, hselected, hget⟩ := usedSide?_eq_some hside
        obtain ⟨b, rfl⟩ := Extended.isFinite_iff.mp hfinite
        have hv : (solverSides row).Contains (finite (lp.activityIn p.1 x)) := by
          rw [h.solverSides_contains_iff hrow, ← h.activityAt_eq hp]
          exact hx.sides p.1 hp row hrow
        simpa [weightAt, hused, hside, hy] using mul_selectedSide_le hselected hget hv
    have hrest := ih fun q hq => hps q (by simp [hq])
    rw [sideTerms, List.flatMap_cons, List.map_append, List.sum_append, List.map_cons,
      List.sum_cons]
    exact add_le_add hone hrest

theorem Certifiable.sum_filter_rowItems (h : lp.Certifiable) (hr : r ∈ lp.rows)
    (hrow : lp.matrix.row? r = some row) (hi : lp.columns[i]? = some c) :
    (((rowItems lp.matrix row).filter (·.1 = i)).map (·.2.rational)).sum =
      lp.coefficientIn c r := by
  have hsum (items : List (Nat × Extended)) :
      ((items.filter (·.1 = i)).map (·.2.rational)).sum =
        (items.map fun p => if p.1 = i then p.2.rational else 0).sum := by
    induction items with
    | nil => rfl
    | cons item items ih => by_cases hitem : item.1 = i <;> simp [hitem, ih]
  have hentry : ∀ e ∈ row.entries.activeEntries,
      (if (lp.matrix.column e.partner).solverPosition.getD 0 = i then e.value.rational else 0) =
        e.value.rational * if e.partner = c then 1 else 0 := by
    intro e he
    obtain ⟨k, hk⟩ := Array.mem_iff_getElem?.mp (h.partner_mem_columns hrow he)
    rw [h.solverPosition_column hk, Option.getD_some]
    have hiff : k = i ↔ e.partner = c := by
      constructor
      · rintro rfl
        exact Option.some.inj (hk.symm.trans hi)
      · rintro rfl
        exact Option.some.inj ((h.solverPosition_column hk).symm.trans (h.solverPosition_column hi))
    simp [hiff]
  have hone : (lp.columns.toList.map fun d =>
      lp.coefficientIn d r * if d = c then 1 else 0).sum = lp.coefficientIn c r := by
    have hcount := h.columns_nodup.count (a := c)
    simp only [mul_ite, mul_one, mul_zero]
    rw [List.sum_map_ite_eq, hcount]
    simp [show c ∈ lp.columns.toList by simpa using Array.mem_of_getElem? hi]
  rw [hsum, h.rowItems_map hrow fun position a => if position = i then a.rational else 0,
    List.map_congr_left hentry, h.sum_row_entries hr hrow fun d => if d = c then 1 else 0,
    activityIn, hone]

/-- The coefficient of an active column is the sum of those in the used rows. -/
theorem Certifiable.sum_coefficientTerms (h : lp.Certifiable)
    (hm : ∀ v ∈ multipliers, v.isFinite = true) (hi : lp.columns[i]? = some c)
    {ps : List (RowRef × Nat)} (hps : ∀ p ∈ ps, p.1 ∈ lp.rows) :
    Extended.sum (lp.coefficientTerms multipliers ps i) =
      finite (ps.map fun p => lp.coefficientIn c p.1 * lp.weightAt multipliers p).sum := by
  rw [Extended.sum_eq_finite fun v hv => h.isFinite_of_mem_coefficientTerms hm hv]
  congr 1
  induction ps with
  | nil => rfl
  | cons p ps ih =>
    rw [coefficientTerms, List.flatMap_cons, List.map_append, List.sum_append, List.map_cons,
      List.sum_cons, ← ih fun q hq => hps q (by simp [hq])]
    congr 1
    have hp := hps p (by simp)
    obtain ⟨row, hrow⟩ := h.rowsExist p.1 hp
    obtain ⟨y, hy⟩ := Extended.isFinite_iff.mp (isFinite_getD hm p.2)
    rw [hrow]
    cases hused : lp.usedAt? multipliers p with
    | none => simp [weightAt, hused]
    | some side =>
      have hterm : ∀ item ∈ (rowItems lp.matrix row).filter (·.1 = i),
          (finite y * item.2).rational = y * item.2.rational := by
        intro item hitem
        obtain ⟨q, hq⟩ := Extended.isFinite_iff.mp
          (h.isFinite_of_mem_rowItems hrow (List.mem_filter.mp hitem).1)
        rw [hq]
        rfl
      simp only [weightAt, hused, Option.isSome_some, if_true, hy, List.map_map]
      rw [← h.sum_filter_rowItems hp hrow hi, Extended.rational_finite, mul_comm,
        ← List.sum_map_mul_left]
      exact congrArg List.sum (List.map_congr_left hterm)

/-! ## The largest left side -/

/-- Within proper bounds, no column contributes negative infinity. -/
theorem largestContribution_ne_negInf {a : Rat} {bounds : Interval}
    (h : ∀ side : Side, side.allows (bounds.get side) = true) :
    largestContribution (finite a) bounds ≠ .negInf := by
  have hlower := h .lower
  have hupper := h .upper
  rw [largestContribution, Extended.sign_finite]
  rcases lt_trichotomy a 0 with ha | rfl | ha
  · rw [if_neg (by linarith), if_pos ha]
    cases hl : bounds.lower with
    | negInf => simp [Extended.finite_mul_negInf ha]
    | finite q => simp
    | posInf => simp [Side.allows, Interval.get, hl] at hlower
  · simp [Extended.zero_def]
  · rw [if_pos ha]
    cases hu : bounds.upper with
    | negInf => simp [Side.allows, Interval.get, hu] at hupper
    | finite q => simp
    | posInf => simp [Extended.finite_mul_posInf ha]

/-- A value within the bounds contributes at most the largest contribution. -/
theorem le_largestContribution (a : Rat) {v : Rat} {bounds : Interval}
    (hv : bounds.Contains (finite v)) : finite (a * v) ≤ largestContribution (finite a) bounds := by
  obtain ⟨hlower, hupper⟩ := hv
  rw [largestContribution, Extended.sign_finite]
  rcases lt_trichotomy a 0 with ha | rfl | ha
  · rw [if_neg (by linarith), if_pos ha]
    cases hl : bounds.lower with
    | negInf => simp [Extended.finite_mul_negInf ha]
    | finite q =>
      rw [hl, Extended.finite_le_finite] at hlower
      exact Extended.finite_le_finite.mpr (mul_le_mul_of_nonpos_left hlower ha.le)
    | posInf => simp [hl] at hlower
  · simp [Extended.zero_def]
  · rw [if_pos ha]
    cases hu : bounds.upper with
    | negInf => simp [hu] at hupper
    | finite q =>
      rw [hu, Extended.finite_le_finite] at hupper
      exact Extended.finite_le_finite.mpr (mul_le_mul_of_nonneg_left hupper ha.le)
    | posInf => simp [Extended.finite_mul_posInf ha]

theorem mem_rows_of_mem_zipIdx {p : RowRef × Nat} (hp : p ∈ lp.rows.toList.zipIdx) :
    p.1 ∈ lp.rows := by
  have hget := List.mk_mem_zipIdx_iff_getElem?.mp hp
  rw [Array.getElem?_toList] at hget
  exact Array.mem_of_getElem? hget

/-- What the contributions are added up from is what the accumulated coefficients give. -/
theorem AddedUp.contributions_eq {g : Aggregate}
    (hg : lp.AddedUp multipliers lp.rows.toList.zipIdx g) :
    (g.coefficients.toList.zip (lp.columns.toList.map fun c => (lp.matrix.column c).spec.bounds)).map
      (fun (a, b) => largestContribution a b) = lp.contributions multipliers := by
  rw [contributions]
  apply List.ext_getElem?
  intro i
  by_cases hi : i < lp.columns.size
  · rw [List.zip, List.map_zipWith, List.getElem?_zipWith, Array.getElem?_toList,
      hg.coefficient i hi]
    simp [hi]
  · simp [hg.size, not_lt.mp hi]

/-- A point that is feasible keeps the inequality from being refuted. -/
theorem Certifiable.not_refutes (h : lp.Certifiable) (hm : ∀ v ∈ multipliers, v.isFinite = true)
    {x : ColumnRef → Rat} (hx : lp.IsFeasible x) {g : Aggregate}
    (hg : lp.AddedUp multipliers lp.rows.toList.zipIdx g) :
    g.refutes (lp.columns.toList.map fun c => (lp.matrix.column c).spec.bounds) = false := by
  have hps (p : RowRef × Nat) (hp : p ∈ lp.rows.toList.zipIdx) : p.1 ∈ lp.rows :=
    mem_rows_of_mem_zipIdx hp
  have hside : g.side ≤ finite (lp.rows.toList.zipIdx.map fun p =>
      lp.weightAt multipliers p * lp.activityIn p.1 x).sum := by
    rw [hg.side, Extended.sum_eq_finite fun v hv => isFinite_of_mem_sideTerms hm hv]
    exact Extended.finite_le_finite.mpr (h.sum_sideTerms_le hm hx hps)
  have hcontribution : ∀ p ∈ lp.columns.toList.zipIdx,
      finite ((lp.rows.toList.zipIdx.map fun q =>
        lp.coefficientIn p.1 q.1 * lp.weightAt multipliers q).sum * x p.1) ≤
      largestContribution
        (Extended.sum (lp.coefficientTerms multipliers lp.rows.toList.zipIdx p.2))
        (lp.matrix.column p.1).spec.bounds := by
    intro p hp
    have hget := List.mk_mem_zipIdx_iff_getElem?.mp hp
    rw [Array.getElem?_toList] at hget
    rw [h.sum_coefficientTerms hm hget hps]
    exact le_largestContribution _ (hx.bounds p.1 (Array.mem_of_getElem? hget))
  have hlargest := Extended.finite_sum_le_sum hcontribution
  have hswap : (lp.columns.toList.zipIdx.map fun p => (lp.rows.toList.zipIdx.map fun q =>
      lp.coefficientIn p.1 q.1 * lp.weightAt multipliers q).sum * x p.1).sum =
      (lp.rows.toList.zipIdx.map fun p =>
        lp.weightAt multipliers p * lp.activityIn p.1 x).sum := by
    simp only [activityIn]
    rw [sum_mul_sum_comm (a := fun c (q : RowRef × Nat) => lp.coefficientIn c q.1)]
    congr 1
    rw [← List.zipIdx_map_fst 0 lp.columns.toList, List.map_map, List.zipIdx_map_fst]
    rfl
  rw [hswap] at hlargest
  rw [Aggregate.refutes, hg.contributions_eq]
  have hle : g.side ≤ Extended.sum (lp.contributions multipliers) :=
    Extended.le_trans hside hlargest
  simp [Extended.lt_iff_not_le, hle]

/-! ## A whole proof -/

variable {E : LpError → Relaxation σ → Prop}

/-- The rows are added up one by one, and what they add up to decides. -/
theorem ends_acceptFarkas_exactly (h : lp.Certifiable)
    (hmultipliers : Solver.farkas lp.solver = .ok multipliers) (a : Approximation) (write : Bool) :
    Ends (acceptFarkas a write) lp
      (fun out _ => out.1 = (lp.addUp multipliers lp.rows.toList.zipIdx).refutes
        (lp.columns.toList.map fun c => (lp.matrix.column c).spec.bounds)) E := by
  simp only [acceptFarkas, Ends.bind_iff, ends_askSolver_iff, hmultipliers, Except.ok.injEq,
    forall_eq', Ends.get_iff, reduceCtorEq, false_implies, implies_true, and_true]
  rw [h.solverIsActive.rows, h.solverIsActive.columns]
  refine (Ends.foldlM_list (fun done g t => ∃ m, t = { lp with matrix := m } ∧
    m.without .values = lp.matrix.without .values ∧ g = lp.addUp multipliers done)
    ⟨lp.matrix, rfl, rfl, by rw [addUp, List.foldl_nil, Array.length_toList]⟩ ?_).mono_ok ?_
  · rintro done ⟨r, i⟩ rest _ t hsplit ⟨m, rfl, hm, rfl⟩
    have hmem : (r, i) ∈ lp.rows.toList.zipIdx := by rw [hsplit]; simp
    obtain ⟨row, hrow⟩ := h.rowsExist r (mem_rows_of_mem_zipIdx hmem)
    obtain ⟨row', hrow', hsame⟩ := ConstraintMatrix.row_eq_of_without hm hrow
    have hget : ({ lp with matrix := m } : Relaxation σ).matrix.row? r = some row' := hrow'
    have hsides : solverSides row' = solverSides row :=
      Forgetting.row_congr solverSides hsame fun _ => rfl
    have hitems : rowItems lp.matrix row' = rowItems lp.matrix row :=
      rowItems_eq_of_without rfl hsame
    simp only [Ends.bind_iff, ends_getRow hget, ends_updateRow hget, Ends.pure_iff]
    refine ⟨_, rfl, ?_, ?_⟩
    · refine (ConstraintMatrix.without_modifyRow m r ?_).trans hm
      exact fun _ => rfl
    · rw [hsides, hitems, addUp_concat hrow]
  · rintro _ t ⟨m, rfl, -, rfl⟩
    refine (Ends.forIn_keeps (fun _ => True) trivial fun p _ t _ => by simp).mono_ok fun _ t _ => ?_
    simp

theorem ends_acceptFarkas (h : lp.Certifiable)
    (hmultipliers : Solver.farkas lp.solver = .ok multipliers) (a : Approximation) (write : Bool) :
    Ends (acceptFarkas a write) lp
      (fun out _ => ∃ g, lp.AddedUp multipliers lp.rows.toList.zipIdx g ∧
        out.1 = g.refutes (lp.columns.toList.map fun c => (lp.matrix.column c).spec.bounds))
      fun _ _ => True :=
  (ends_acceptFarkas_exactly h hmultipliers a write).mono_ok fun _ _ hout =>
    ⟨_, addedUp_addUp fun p hp => h.rowsExist p.1 (mem_rows_of_mem_zipIdx hp), hout⟩

/-- There is no feasible point if a proof of infeasibility is accepted, and whether it is or not,
opposite infinities are never added: not to the right side, not to a coefficient, and not to the
largest left side. -/
theorem acceptFarkas_sound {lp lp' : Relaxation σ} {a a' : Approximation} {write proved : Bool}
    (hconsistent : lp.isConsistent = true) (hproper : lp.matrix.Proper)
    (hpositioned : lp.Positioned) (hsolver : lp.SolverIsActive) (hlinked : lp.AllLinked)
    (hmultipliers : Solver.farkas lp.solver = .ok multipliers)
    (hm : ∀ v ∈ multipliers, v.isFinite = true)
    (hrun : (acceptFarkas a write).run.run lp = (.ok (proved, a'), lp')) :
    (proved = true → ∀ x, ¬ lp.IsFeasible x) ∧
      (∃ g, lp.AddedUp multipliers lp.rows.toList.zipIdx g ∧
        proved = g.refutes (lp.columns.toList.map fun c => (lp.matrix.column c).spec.bounds)) ∧
      SumsWell (lp.sideTerms multipliers lp.rows.toList.zipIdx) ∧
      (∀ i, SumsWell (lp.coefficientTerms multipliers lp.rows.toList.zipIdx i)) ∧
      SumsWell (lp.contributions multipliers) := by
  have h := certifiable_of_isConsistent hconsistent hproper hpositioned hsolver hlinked
  obtain ⟨g, hg, hproved⟩ := (ends_acceptFarkas h hmultipliers a write).of_ok hrun
  have hne {v : Extended} (hv : v.isFinite = true) : v ≠ .negInf := by
    rintro rfl
    cases hv
  refine ⟨?_, ⟨g, hg, hproved⟩, ?_, ?_, ?_⟩
  · rintro rfl x hx
    rw [h.not_refutes hm hx hg] at hproved
    cases hproved
  · exact Extended.sumsWell_of_ne_negInf fun v hv => hne (isFinite_of_mem_sideTerms hm hv)
  · exact fun i => Extended.sumsWell_of_ne_negInf fun v hv =>
      hne (h.isFinite_of_mem_coefficientTerms hm hv)
  · refine Extended.sumsWell_of_ne_negInf fun v hv => ?_
    obtain ⟨⟨c, i⟩, hp, rfl⟩ := List.mem_map.mp hv
    have hget := List.mk_mem_zipIdx_iff_getElem?.mp hp
    rw [Array.getElem?_toList] at hget
    dsimp only
    rw [h.sum_coefficientTerms hm hget fun _ => mem_rows_of_mem_zipIdx]
    exact largestContribution_ne_negInf (h.proper.bounds c)

/-- A column between zero and ten cannot be twenty. -/
theorem acceptFarkas_single :
    let lp := single 20 none (some #[1])
    lp.isConsistent = true ∧ ¬ (∃ x, lp.IsFeasible x) ∧ SumsWell (lp.contributions #[1]) := by
  intro lp
  have hrun : (acceptFarkas .empty false).run.run lp =
      (.ok (true, .empty), ((acceptFarkas .empty false).run.run lp).2) :=
    Prod.ext (by decide +kernel) rfl
  have hsound := acceptFarkas_sound (isConsistent_single ..) (proper_single ..)
    (positioned_single ..) ⟨rfl, rfl⟩ (allLinked_single _ _ _) rfl (by simp; rfl) hrun
  exact ⟨isConsistent_single .., fun ⟨x, hx⟩ => hsound.1 rfl x hx, hsound.2.2.2.2⟩

end Relaxation

end CertifiedLp
