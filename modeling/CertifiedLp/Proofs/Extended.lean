import Mathlib
import CertifiedLp.Extended.Basic

/-!
# Sums of extended numbers

Sums of rational numbers stay rational, and a sum that holds no negative infinity keeps the order.
Opposite infinities have no sum: `SumsWell` says of a list that adding it up from left to right
never meets them.
-/

namespace CertifiedLp

namespace Extended

/-- The rational number, where there is one. -/
def rational (x : Extended) : Rat := x.finite?.getD 0

@[simp] theorem rational_finite (q : Rat) : (finite q).rational = q := rfl

theorem finite_rational {x : Extended} (h : x.isFinite = true) : finite x.rational = x := by
  obtain ⟨q, rfl⟩ := isFinite_iff.mp h
  rfl

@[simp] theorem finite_inj {a b : Rat} : finite a = finite b ↔ a = b := by simp

protected theorem neg_le_neg_iff {x y : Extended} : -x ≤ -y ↔ y ≤ x := by
  cases x <;> cases y <;> simp

@[simp] theorem isInfinite_iff {x : Extended} : x.isInfinite = true ↔ x.isFinite = false := by
  simp [isInfinite]

@[simp] theorem posInf_add (x : Extended) : posInf + x = posInf := by cases x <;> rfl

theorem negInf_add_of_ne {x : Extended} (h : x ≠ posInf) : negInf + x = negInf := by
  cases x <;> first | rfl | exact absurd rfl h

@[simp] theorem finite_mul_zero_def (a : Rat) : finite a * (0 : Extended) = 0 := by
  simp [zero_def]

@[simp] theorem sign_finite (q : Rat) :
    (finite q).sign = if 0 < q then .gt else if q < 0 then .lt else .eq := by
  simp [sign, isPositive, isNegative, zero_def]

theorem finite_mul_posInf {a : Rat} (h : 0 < a) : finite a * posInf = posInf := by
  have hmul : finite a * posInf = if (finite a).isZero || posInf.isZero then 0
      else if (finite a).isPositive == posInf.isPositive then posInf else negInf := rfl
  rw [hmul]
  simp [isZero, isPositive, zero_def, h, h.ne', lt_iff_not_le]

theorem finite_mul_negInf {a : Rat} (h : a < 0) : finite a * negInf = posInf := by
  have hmul : finite a * negInf = if (finite a).isZero || negInf.isZero then 0
      else if (finite a).isPositive == negInf.isPositive then posInf else negInf := rfl
  rw [hmul]
  simp [isZero, isPositive, zero_def, h.ne, h.le, lt_iff_not_le]

theorem finite_mul_negInf_of_pos {a : Rat} (h : 0 < a) : finite a * negInf = negInf := by
  have hmul : finite a * negInf = if (finite a).isZero || negInf.isZero then 0
      else if (finite a).isPositive == negInf.isPositive then posInf else negInf := rfl
  rw [hmul]
  simp [isZero, isPositive, zero_def, h, h.ne', lt_iff_not_le]

theorem finite_mul_posInf_of_neg {a : Rat} (h : a < 0) : finite a * posInf = negInf := by
  have hmul : finite a * posInf = if (finite a).isZero || posInf.isZero then 0
      else if (finite a).isPositive == posInf.isPositive then posInf else negInf := rfl
  rw [hmul]
  simp [isZero, isPositive, zero_def, h.ne, h.le, lt_iff_not_le]

/-! ## Order and addition -/

/-- Bounds from above add up, whether they are rational or not. -/
theorem finite_add_le_add {a b : Rat} {x y : Extended} (hx : finite a ≤ x) (hy : finite b ≤ y) :
    finite (a + b) ≤ x + y := by
  cases x with
  | negInf => exact absurd hx (not_finite_le_negInf a)
  | posInf => simp
  | finite x =>
    cases y with
    | negInf => exact absurd hy (not_finite_le_negInf b)
    | posInf => exact le_posInf _
    | finite y =>
      simp only [finite_le_finite, finite_add_finite] at hx hy ⊢
      linarith

/-- A rational number keeps the order when it is added to a value below a rational number. -/
theorem add_finite_le {a b c : Rat} {x : Extended} (hx : x ≤ finite a) (hb : b ≤ c) :
    x + finite b ≤ finite (a + c) := by
  cases x with
  | negInf => exact negInf_le _
  | posInf => exact absurd hx (not_posInf_le_finite a)
  | finite x =>
    simp only [finite_le_finite, finite_add_finite] at hx ⊢
    linarith

/-! ## Sums -/

theorem foldl_add_finite (a : Rat) (qs : List Rat) :
    (qs.map finite).foldl (· + ·) (finite a) = finite (a + qs.sum) := by
  induction qs generalizing a with
  | nil => simp
  | cons q qs ih => simp [ih, add_assoc]

/-- A sum of rational numbers is rational. -/
@[simp] theorem sum_map_finite (qs : List Rat) : sum (qs.map finite) = finite qs.sum := by
  rw [sum_eq_foldl, zero_def, foldl_add_finite, zero_add]

theorem map_finite_rational {xs : List Extended} (h : ∀ x ∈ xs, x.isFinite = true) :
    (xs.map rational).map finite = xs := by
  rw [List.map_map]
  conv_rhs => rw [← List.map_id xs]
  exact List.map_congr_left fun x hx => finite_rational (h x hx)

theorem sum_eq_finite {xs : List Extended} (h : ∀ x ∈ xs, x.isFinite = true) :
    sum xs = finite (xs.map rational).sum := by
  rw [← sum_map_finite, map_finite_rational h]

theorem sum_append (xs ys : List Extended) : sum (xs ++ ys) = ys.foldl (· + ·) (sum xs) := by
  rw [sum_eq_foldl, sum_eq_foldl, List.foldl_append]

/-- A sum is at least the sum of rational numbers below its items. -/
theorem finite_sum_le_sum {α : Type} {xs : List α} {f : α → Rat} {g : α → Extended}
    (h : ∀ x ∈ xs, finite (f x) ≤ g x) : finite (xs.map f).sum ≤ sum (xs.map g) := by
  induction xs using List.reverseRecOn with
  | nil => simp [zero_def]
  | append_singleton xs x ih =>
    rw [List.map_append, List.map_append, List.map_singleton, List.map_singleton,
      sum_append_singleton, List.sum_append, List.sum_singleton]
    exact finite_add_le_add (ih fun y hy => h y (by simp [hy])) (h x (by simp))

/-! ## Opposite infinities -/

/-- Two values without a sum. -/
def Opposite (x y : Extended) : Prop := (x = negInf ∧ y = posInf) ∨ (x = posInf ∧ y = negInf)

/-- Adding up the list from left to right never adds opposite infinities. -/
def SumsWell (xs : List Extended) : Prop :=
  ∀ done x rest, xs = done ++ x :: rest → ¬ Opposite (sum done) x

theorem sum_ne_negInf {xs : List Extended} (h : ∀ x ∈ xs, x ≠ negInf) : sum xs ≠ negInf := by
  induction xs using List.reverseRecOn with
  | nil => simp [zero_def]
  | append_singleton xs x ih =>
    have hxs := ih fun y hy => h y (by simp [hy])
    have hx := h x (by simp)
    rw [sum_append_singleton]
    generalize sum xs = s at *
    cases s with
    | negInf => exact absurd rfl hxs
    | posInf => simp
    | finite a => cases x <;> simp_all [HAdd.hAdd, Add.add, Extended.add]

/-- Without negative infinities there is nothing opposite to positive ones. -/
theorem sumsWell_of_ne_negInf {xs : List Extended} (h : ∀ x ∈ xs, x ≠ negInf) : SumsWell xs := by
  rintro done x rest rfl (⟨hdone, -⟩ | ⟨-, hx⟩)
  · exact sum_ne_negInf (fun y hy => h y (by simp [hy])) hdone
  · exact h x (by simp) hx

end Extended

end CertifiedLp
