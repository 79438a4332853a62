import Mathlib
import CertifiedLp.Proofs.Extended.Laws
import CertifiedLp.Proofs.Relaxation.Aggregates

/-!
# Extreme activities

The least and the greatest activity of a row within the bounds of the columns are sums over the
columns: a column counts with the bound that its coefficient selects. No such sum adds opposite
infinities, and every point within the bounds has an activity between the two.

Only the list of the row is added up. A coefficient that only its column has is not in there, so that
the extremes are those of the coefficients that can be read only if the list is complete.
-/

namespace CertifiedLp

open Extended (finite)

namespace Extended

variable {α : Type} {xs : List Extended}

/-- Values that an end can have are added up without opposite infinities. -/
theorem sumsWell_of_allows (side : Side) (h : ∀ x ∈ xs, side.allows x = true) : SumsWell xs := by
  rw [sumsWell_iff]
  rintro ⟨hpos, hneg⟩
  cases side
  · exact absurd (h posInf hpos) (by decide)
  · exact absurd (h negInf hneg) (by decide)

theorem allows_finite (side : Side) (q : Rat) : side.allows (finite q) = true := by
  cases side <;> rfl

theorem sum_cons (x : Extended) (xs : List Extended) : sum (x :: xs) = x + sum xs := by
  rw [sum_eq_foldr, sum_eq_foldr, List.foldr_cons]

/-- A running total is its start plus a sum. -/
theorem foldl_add_eq (f : α → Extended) (xs : List α) (start : Extended) :
    xs.foldl (fun total x => total + f x) start = start + sum (xs.map f) := by
  induction xs generalizing start with
  | nil => exact (Extended.add_zero start).symm
  | cons x xs ih => rw [List.foldl_cons, ih, List.map_cons, sum_cons, Extended.add_assoc]

/-- Zeros do not count. -/
theorem sum_map_filter {f : α → Extended} {p : α → Bool} {xs : List α}
    (h : ∀ x ∈ xs, p x = false → f x = 0) : sum ((xs.filter p).map f) = sum (xs.map f) := by
  induction xs with
  | nil => rfl
  | cons x xs ih =>
    have hrest := ih fun y hy => h y (List.mem_cons_of_mem x hy)
    rw [List.map_cons, sum_cons, ← hrest, List.filter_cons]
    split
    · rw [List.map_cons, sum_cons]
    · next hx => rw [h x List.mem_cons_self (by simpa using hx), Extended.zero_add]

protected theorem add_le_add {a b c d : Extended} (hab : a ≤ b) (hcd : c ≤ d) : a + c ≤ b + d := by
  refine Extended.le_trans (Extended.add_le_add_right hab c) ?_
  rw [Extended.add_comm b, Extended.add_comm b]
  exact Extended.add_le_add_right hcd b

theorem sum_map_le_sum_map {f g : α → Extended} {xs : List α} (h : ∀ x ∈ xs, f x ≤ g x) :
    sum (xs.map f) ≤ sum (xs.map g) := by
  induction xs with
  | nil => exact Extended.le_refl _
  | cons x xs ih =>
    rw [List.map_cons, List.map_cons, sum_cons, sum_cons]
    exact Extended.add_le_add (h x List.mem_cons_self) (ih fun y hy => h y (List.mem_cons_of_mem x hy))

@[simp] theorem isPositive_finite (a : Rat) : (finite a).isPositive = decide (0 < a) := by
  simp [isPositive, zero_def]

theorem mul_le_mul_left {a : Rat} {x y : Extended} (ha : 0 ≤ a) (h : x ≤ y) :
    finite a * x ≤ finite a * y := by
  rw [Extended.mul_comm, Extended.mul_comm (finite a)]
  exact Extended.mul_le_mul_of_nonneg_right h (finite_le_finite.mpr ha)

theorem mul_le_mul_left_of_nonpos {a : Rat} {x y : Extended} (ha : a ≤ 0) (h : x ≤ y) :
    finite a * y ≤ finite a * x := by
  have hneg := mul_le_mul_left (neg_nonneg.mpr ha) h
  rwa [← neg_finite, ← Extended.neg_mul, ← Extended.neg_mul, Extended.neg_le_neg_iff] at hneg

end Extended

/-! ## One summand -/

namespace Interval

variable {bounds : Interval} {extreme : Side} {a x : Rat}

/-- The end of an interval at which a multiple is extreme. -/
def scaledEnd (bounds : Interval) (a : Extended) (extreme : Side) : Extended :=
  a * bounds.get (if a.isPositive then extreme else extreme.opposite)

theorem scaledEnd_of_pos (ha : 0 < a) (bounds : Interval) (extreme : Side) :
    bounds.scaledEnd (finite a) extreme = finite a * bounds.get extreme := by
  rw [scaledEnd, Extended.isPositive_finite, if_pos (decide_eq_true ha)]

theorem scaledEnd_of_nonpos (ha : a ≤ 0) (bounds : Interval) (extreme : Side) :
    bounds.scaledEnd (finite a) extreme = finite a * bounds.get extreme.opposite := by
  rw [scaledEnd, Extended.isPositive_finite, if_neg (by simpa using ha)]

/-- An extreme multiple is not infinite in the wrong direction. -/
theorem allows_scaledEnd (h : ∀ side : Side, side.allows (bounds.get side) = true) (a : Rat)
    (extreme : Side) : extreme.allows (bounds.scaledEnd (finite a) extreme) = true := by
  have hends := And.intro (h .lower) (h .upper)
  rcases lt_trichotomy a 0 with ha | rfl | ha
  · rw [scaledEnd_of_nonpos ha.le]
    cases extreme with
    | lower =>
      cases hend : bounds.upper <;>
        simp_all [get, Side.opposite, Side.allows, Extended.finite_mul_posInf_of_neg]
    | upper =>
      cases hend : bounds.lower <;>
        simp_all [get, Side.opposite, Side.allows, Extended.finite_mul_negInf]
  · rw [scaledEnd_of_nonpos le_rfl, ← Extended.zero_def, Extended.zero_mul]
    exact Extended.allows_finite extreme 0
  · rw [scaledEnd_of_pos ha]
    cases extreme with
    | lower =>
      cases hend : bounds.lower <;> simp_all [get, Side.allows, Extended.finite_mul_negInf_of_pos]
    | upper =>
      cases hend : bounds.upper <;> simp_all [get, Side.allows, Extended.finite_mul_posInf]

/-- Multiples of what is between the bounds are between the extreme ones. -/
theorem scaledEnd_le (h : bounds.Contains (finite x)) (a : Rat) :
    bounds.scaledEnd (finite a) .lower ≤ finite (a * x) ∧
      finite (a * x) ≤ bounds.scaledEnd (finite a) .upper := by
  rw [← Extended.finite_mul_finite]
  rcases lt_or_ge 0 a with ha | ha
  · rw [scaledEnd_of_pos ha, scaledEnd_of_pos ha]
    exact ⟨Extended.mul_le_mul_left ha.le h.1, Extended.mul_le_mul_left ha.le h.2⟩
  · rw [scaledEnd_of_nonpos ha, scaledEnd_of_nonpos ha]
    exact ⟨Extended.mul_le_mul_left_of_nonpos ha h.2, Extended.mul_le_mul_left_of_nonpos ha h.1⟩

end Interval

/-! ## What the list of a row has -/

namespace ConstraintMatrix

variable {m : ConstraintMatrix} {c : ColumnRef} {r : RowRef} {row : Row}

/-- The coefficient of a column in the list of a row. -/
def ownAmount (m : ConstraintMatrix) (r : RowRef) (c : ColumnRef) : Rat :=
  ((m.grid.stored (.row r) (.column c)).map (·.1.rational)).sum

/-- No coefficient of the row is in the list of its column only. -/
def Complete (m : ConstraintMatrix) (r : RowRef) : Prop :=
  ∀ c, ∀ e ∈ (m.column c).entries.entries, e.partner = r → e.link.isSome = true

/-- An entry of a row in order is all that the row has for its column. -/
theorem Sound.ownAmount_of_entry (hm : m.Sound) (hrow : m.row? r = some row)
    (hordered : row.delayed = false) {e : Entry ColumnRef} (he : e ∈ row.entries.entries) :
    finite (m.ownAmount r e.partner) = e.value := by
  have horder : m.InOrder (.row r) := (inOrder_row hrow).mpr hordered
  obtain ⟨i, hi⟩ := Array.mem_iff_getElem?.mp he
  have hcell := cell_of_row hrow hi
  have hmem : (e.value, e.link.isSome) ∈ m.grid.stored (.row r) (.column e.partner) :=
    Grid.mem_stored_iff.mpr ⟨i, _, hcell, rfl, rfl, rfl⟩
  rw [ownAmount, hm.tidy.stored_eq_singleton horder hmem, Multiset.map_singleton,
    Multiset.sum_singleton]
  exact Extended.finite_rational (hm.tidy.value_of_cell hcell).1

/-- A row has nothing for other columns. -/
theorem ownAmount_of_notMem (hrow : m.row? r = some row)
    (hc : c ∉ row.entries.entries.toList.map (·.partner)) : m.ownAmount r c = 0 := by
  have hnone : m.grid.stored (.row r) (.column c) = 0 := by
    refine Multiset.eq_zero_of_forall_notMem fun v hv => ?_
    obtain ⟨i, e, hcell, hpartner, -⟩ := Grid.mem_stored_iff.mp hv
    rw [cell_row hrow, Option.map_eq_some_iff] at hcell
    obtain ⟨e, he, rfl⟩ := hcell
    refine hc (List.mem_map.mpr ⟨e, by simpa using Array.mem_of_getElem? he, ?_⟩)
    exact Line.column_injective hpartner
  rw [ownAmount, hnone]
  rfl

/-- The list of a complete row has what can be read. -/
theorem Sound.amount_eq_ownAmount (hm : m.Sound) (horder : m.InOrder (.row r))
    (hcomplete : m.Complete r) (c : ColumnRef) : m.amount c r = m.ownAmount r c := by
  rcases (m.grid.stored (.column c) (.row r)).empty_or_exists_mem with hnone | ⟨⟨v, b⟩, hv⟩
  · have hback : ∀ w ∈ m.grid.stored (.row r) (.column c), w.2 = false := by
      rintro ⟨w, b⟩ hw
      cases b with
      | false => rfl
      | true =>
        obtain ⟨k, e, hcell, hpartner, -, hlink⟩ := Grid.mem_stored_iff.mp hw
        obtain ⟨partner, value, link⟩ := e
        obtain ⟨i, rfl⟩ := Option.isSome_iff_exists.mp hlink
        obtain rfl : partner = .column c := hpartner
        exact absurd hnone (stored_ne_zero (hm.wired.mirrored.back hcell))
    rw [amount, content, hnone, Multiset.map_zero, zero_add, Multiset.filter_eq_self.mpr hback,
      Multiset.map_map, ownAmount]
    rfl
  · obtain ⟨p, e, hcell, hpartner, rfl, rfl⟩ := Grid.mem_stored_iff.mp hv
    rw [cell_column, Option.map_eq_some_iff] at hcell
    obtain ⟨⟨s, value, link⟩, he, rfl⟩ := hcell
    obtain rfl : s = r := Line.row_injective hpartner
    obtain ⟨k, rfl⟩ := Option.isSome_iff_exists.mp
      (hcomplete c _ (Array.mem_of_getElem? he) rfl)
    have hback := hm.wired.mirrored.back (cell_of_column he)
    have hmem : (value, true) ∈ m.grid.stored (.row s) (.column c) :=
      Grid.mem_stored_iff.mpr ⟨k, _, hback, rfl, rfl, rfl⟩
    rw [amount_of_content (hm.content_of_column horder he), ownAmount,
      hm.tidy.stored_eq_singleton horder hmem, Multiset.map_singleton, Multiset.sum_singleton]

end ConstraintMatrix

/-! ## Sums over the columns -/

namespace Relaxation

variable {σ : Type} [Solver σ] {lp : Relaxation σ} {c : ColumnRef} {r : RowRef} {row : Row}
variable {solver : σ} {settings : Settings} {actions : List Action} {start : Relaxation σ}

/-- What a column adds to the extreme activity of a row. -/
def extremeTerm (lp : Relaxation σ) (r : RowRef) (extreme : Side) (c : ColumnRef) : Extended :=
  (lp.matrix.column c).spec.bounds.scaledEnd (finite (lp.matrix.ownAmount r c)) extreme

/-- The activity of a row at a point, with all columns and what the list of the row has for them. -/
def ownActivity (lp : Relaxation σ) (r : RowRef) (x : ColumnRef → Rat) : Rat :=
  (lp.matrix.columnRefs.map fun c => lp.matrix.ownAmount r c * x c).sum

theorem rowExtremeActivity_eq_foldl (hrow : lp.matrix.row? r = some row) (extreme : Side) :
    lp.rowExtremeActivity r extreme = .ok (row.entries.entries.toList.foldl (fun total e =>
      total + (lp.matrix.column e.partner).spec.bounds.scaledEnd e.value extreme)
      row.spec.constant) := by
  rw [rowExtremeActivity, ConstraintMatrix.existingRow, hrow, Array.foldl_toList]
  simp only [Extended.addProduct_eq, Interval.scaledEnd]
  rfl

namespace Coherent

variable (hlp : lp.Coherent) (hrow : lp.matrix.row? r = some row) (hordered : row.delayed = false)

include hlp hrow hordered

/-- Each entry of a row in order is what a column adds. -/
theorem map_entries_eq (extreme : Side) :
    (row.entries.entries.toList.map fun e =>
      (lp.matrix.column e.partner).spec.bounds.scaledEnd e.value extreme) =
      (row.entries.entries.toList.map (·.partner)).map (lp.extremeTerm r extreme) := by
  rw [List.map_map]
  refine List.map_congr_left fun e he => ?_
  rw [Function.comp_apply, extremeTerm,
    hlp.sound.ownAmount_of_entry hrow hordered (by simpa using he)]

/-- The columns that a row has entries for, in another order. -/
theorem perm_partners :
    (row.entries.entries.toList.map (·.partner)).Perm (lp.matrix.columnRefs.filter fun c =>
      decide (c ∈ row.entries.entries.toList.map (·.partner))) := by
  have hnodup : lp.matrix.columnRefs.Nodup :=
    List.nodup_range.map fun _ _ heq => congrArg ColumnRef.index heq
  refine (List.perm_ext_iff_of_nodup (hlp.sound.rowDistinct hrow hordered) (hnodup.filter _)).mpr
    fun c => ?_
  rw [List.mem_filter, decide_eq_true_iff]
  refine ⟨fun hc => ⟨?_, hc⟩, And.right⟩
  obtain ⟨e, he, rfl⟩ := List.mem_map.mp hc
  obtain ⟨i, hi⟩ := List.getElem?_of_mem he
  exact ConstraintMatrix.mem_columnRefs.mpr
    (hlp.sound.tidy.has_partner (ConstraintMatrix.cell_of_row hrow (by simpa using hi)))

/-- The extreme activity is a sum over the columns. -/
theorem rowExtremeActivity_eq (extreme : Side) :
    lp.rowExtremeActivity r extreme = .ok (row.spec.constant +
      Extended.sum (lp.matrix.columnRefs.map (lp.extremeTerm r extreme))) := by
  rw [rowExtremeActivity_eq_foldl hrow, Extended.foldl_add_eq,
    hlp.map_entries_eq hrow hordered, Extended.sum_perm ((hlp.perm_partners hrow hordered).map _),
    Extended.sum_map_filter fun c _ hc => ?_]
  rw [extremeTerm, ConstraintMatrix.ownAmount_of_notMem hrow (of_decide_eq_false hc),
    Interval.scaledEnd_of_nonpos le_rfl]
  exact Extended.zero_mul _

end Coherent

/-- No item of an extreme activity is infinite in the wrong direction. -/
theorem Summed.sumsWell_extreme (hlp : lp.Summed) (hconstant : row.spec.constant.isFinite = true)
    {cs : List ColumnRef} (hcs : ∀ c ∈ cs, lp.matrix.Has (.column c)) (extreme : Side) :
    Extended.SumsWell (row.spec.constant :: cs.map (lp.extremeTerm r extreme)) := by
  refine Extended.sumsWell_of_allows extreme fun x hx => ?_
  rcases List.mem_cons.mp hx with rfl | hx
  · obtain ⟨q, hq⟩ := Extended.isFinite_iff.mp hconstant
    exact hq ▸ Extended.allows_finite extreme q
  · obtain ⟨c, hc, rfl⟩ := List.mem_map.mp hx
    exact Interval.allows_scaledEnd (hlp.sums.sensible c (hcs c hc)).bounds _ extreme

/-- A point is within the bounds of all columns. -/
def Within (lp : Relaxation σ) (x : ColumnRef → Rat) : Prop :=
  ∀ c ∈ lp.matrix.columnRefs, (lp.matrix.column c).spec.bounds.Contains (finite (x c))

/-- The value of an extreme activity. -/
def extremeValue (lp : Relaxation σ) (r : RowRef) (row : Row) (extreme : Side) : Extended :=
  row.spec.constant + Extended.sum (lp.matrix.columnRefs.map (lp.extremeTerm r extreme))

/-- Every point within the bounds has an activity between the extreme ones. -/
theorem Within.between {x : ColumnRef → Rat} (hx : lp.Within x) (r : RowRef) (row : Row) :
    lp.extremeValue r row .lower ≤ row.spec.constant + finite (lp.ownActivity r x) ∧
      row.spec.constant + finite (lp.ownActivity r x) ≤ lp.extremeValue r row .upper := by
  rw [ownActivity, ← Extended.sum_map_finite, List.map_map]
  constructor
  · refine Extended.add_le_add (Extended.le_refl _) (Extended.sum_map_le_sum_map fun c hc => ?_)
    exact (Interval.scaledEnd_le (hx c hc) _).1
  · refine Extended.add_le_add (Extended.le_refl _) (Extended.sum_map_le_sum_map fun c hc => ?_)
    exact (Interval.scaledEnd_le (hx c hc) _).2

/-- Whatever was done to a relaxation, the extreme activities of a row in order are those of the
coefficients in its list: they are computed without adding opposite infinities, and they enclose the
activity of every point within the bounds. These coefficients are the ones that can be read, if no
column has one for itself. -/
theorem performAll_extremes (hcreate : create solver settings = .ok start)
    (hactions : Throughout Permits start actions)
    (hrow : (start.performAll actions).matrix.row? r = some row) (hordered : row.delayed = false)
    (hconstant : row.spec.constant.isFinite = true) :
    let lp := start.performAll actions
    (∀ extreme, lp.rowExtremeActivity r extreme = .ok (lp.extremeValue r row extreme) ∧
      Extended.SumsWell (row.spec.constant :: row.entries.entries.toList.map fun e =>
        (lp.matrix.column e.partner).spec.bounds.scaledEnd e.value extreme)) ∧
    (∀ x, lp.Within x →
      lp.extremeValue r row .lower ≤ row.spec.constant + finite (lp.ownActivity r x) ∧
        row.spec.constant + finite (lp.ownActivity r x) ≤ lp.extremeValue r row .upper) ∧
    (lp.matrix.Complete r → ∀ c, lp.matrix.Has (.column c) →
      ((coefficient c r).run.run lp).1 = .ok (finite (lp.matrix.ownAmount r c))) := by
  intro lp
  have hlp : lp.Summed := (summed_create hcreate).performAll hactions
  refine ⟨fun extreme => ⟨hlp.coherent.rowExtremeActivity_eq hrow hordered extreme, ?_⟩,
    fun x hx => hx.between r row, fun hcomplete c hc => ?_⟩
  · rw [hlp.coherent.map_entries_eq hrow hordered]
    refine hlp.sumsWell_extreme hconstant (fun c hc => ?_) extreme
    have hmem := (hlp.coherent.perm_partners hrow hordered).mem_iff.mp hc
    exact ConstraintMatrix.mem_columnRefs.mp (List.mem_of_mem_filter hmem)
  · obtain ⟨value, t, hrun, -, rfl⟩ :=
      (hlp.coherent.ends_coefficient_ordered hc hrow hordered).exists_ok
    rw [hrun, hlp.coherent.sound.amount_eq_ownAmount
      ((ConstraintMatrix.inOrder_row hrow).mpr hordered) hcomplete]

end Relaxation

end CertifiedLp
