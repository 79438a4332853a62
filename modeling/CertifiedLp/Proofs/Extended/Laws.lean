import Mathlib
import CertifiedLp.Proofs.Extended

/-!
# Laws of extended arithmetic

Extended numbers obey the laws of the rational numbers, where no sum adds opposite infinities. Of a
product with an infinity only the signs of its factors matter: `limit` is the value in the direction
of a sign, and `limit_mul` reduces such products to those of signs.

A sum has a closed form (`sum_eq`) that does not mention the order of its items: an infinity among
them decides, and otherwise it is the sum of rational numbers.
-/

namespace CertifiedLp

namespace Extended

variable {x y z : Extended} {xs ys : List Extended}

/-! ## Sums of two -/

@[simp] theorem add_posInf (x : Extended) : x + posInf = posInf := by cases x <;> rfl

@[simp] theorem negInf_add_finite (q : Rat) : negInf + finite q = negInf := rfl

@[simp] theorem finite_add_negInf (q : Rat) : finite q + negInf = negInf := rfl

@[simp] theorem negInf_add_negInf : negInf + negInf = negInf := rfl

protected theorem add_comm (x y : Extended) : x + y = y + x := by
  cases x <;> cases y <;> simp [add_comm]

protected theorem add_assoc (x y z : Extended) : x + y + z = x + (y + z) := by
  cases x <;> cases y <;> cases z <;> simp [add_assoc]

protected theorem zero_add (x : Extended) : 0 + x = x := by
  cases x <;> simp [zero_def]

protected theorem add_zero (x : Extended) : x + 0 = x := by
  rw [Extended.add_comm, Extended.zero_add]

/-- An infinity absorbs everything but the opposite infinity. -/
theorem add_eq_left (hx : x.isInfinite = true) (h : ¬ Opposite x y) : x + y = x := by
  cases x <;> cases y <;> simp_all [Opposite]

theorem opposite_comm : Opposite x y ↔ Opposite y x := by
  rw [Opposite, Opposite, and_comm, @and_comm (x = posInf), or_comm]

protected theorem neg_add (h : ¬ Opposite x y) : -(x + y) = -x + -y := by
  cases x <;> cases y <;> simp_all [Opposite, add_comm]

/-- Both ways to add three values meet opposite infinities, or none does. -/
theorem opposite_assoc : (¬ Opposite x y ∧ ¬ Opposite (x + y) z) ↔
    (¬ Opposite y z ∧ ¬ Opposite x (y + z)) := by
  cases x <;> cases y <;> cases z <;> simp [Opposite]

protected theorem add_le_add_right (h : x ≤ y) (z : Extended) : x + z ≤ y + z := by
  cases x <;> cases y <;> cases z <;> simp_all

/-! ## Signs -/

/-- The sign as a factor. -/
def signum : Extended → SignType
  | negInf => -1
  | finite q => SignType.sign q
  | posInf => 1

/-- The infinity in the direction of a sign, and zero for none. -/
def limit : SignType → Extended
  | .zero => 0
  | .neg => negInf
  | .pos => posInf

@[simp] theorem limit_zero : limit 0 = 0 := rfl

theorem signum_eq_zero_iff : x.signum = 0 ↔ x = 0 := by
  cases x <;> simp [signum, zero_def]

@[simp] theorem signum_limit (s : SignType) : (limit s).signum = s := by
  cases s <;> rfl

theorem eq_finite_or_limit (x : Extended) : (∃ q, x = finite q) ∨ ∃ s, x = limit s := by
  cases x with
  | negInf => exact .inr ⟨-1, rfl⟩
  | finite q => exact .inl ⟨q, rfl⟩
  | posInf => exact .inr ⟨1, rfl⟩

theorem isInfinite_limit {s : SignType} (h : s ≠ 0) : (limit s).isInfinite = true := by
  cases s <;> first | rfl | exact absurd rfl h

@[simp] theorem neg_limit (s : SignType) : -limit s = limit (-s) := by
  cases s <;> rfl

theorem limit_add_self (s : SignType) : limit s + limit s = limit s := by
  cases s with
  | zero => exact Extended.zero_add 0
  | _ => rfl

theorem signum_neg (x : Extended) : (-x).signum = -x.signum := by
  cases x with
  | finite q => exact Left.sign_neg q
  | _ => rfl

theorem limit_mono {s t : SignType} (h : s ≤ t) : limit s ≤ limit t := by
  revert s t
  decide

theorem signum_mono (h : x ≤ y) : x.signum ≤ y.signum := by
  cases x with
  | negInf => exact SignType.neg_one_le _
  | posInf => cases y <;> first | exact le_rfl | simp at h
  | finite a =>
    cases y with
    | negInf => simp at h
    | posInf => exact SignType.le_one _
    | finite b => exact SignType.sign.monotone (finite_le_finite.mp h)

/-! ## Products -/

theorem isZero_eq (x : Extended) : x.isZero = decide (x.signum = 0) := by
  rw [isZero]
  simp only [signum_eq_zero_iff]

theorem isPositive_eq (x : Extended) : x.isPositive = decide (x.signum = 1) := by
  cases x <;> simp [isPositive, signum, zero_def, lt_iff_not_le, sign_eq_one_iff]

/-- The product is that of the signs, if a factor is infinite. -/
theorem mul_eq_limit (h : x.isInfinite = true ∨ y.isInfinite = true) :
    x * y = limit (x.signum * y.signum) := by
  have hmul : x * y = if x.isZero || y.isZero then 0
      else if x.isPositive == y.isPositive then posInf else negInf := by
    cases x <;> cases y <;> first | rfl | simp at h
  have hsigns (s t : SignType) : (if decide (s = 0) || decide (t = 0) then 0
      else if decide (s = 1) == decide (t = 1) then posInf else negInf) = limit (s * t) := by
    revert s t
    decide
  rw [hmul, isZero_eq, isZero_eq, isPositive_eq, isPositive_eq, hsigns]

protected theorem zero_mul (x : Extended) : 0 * x = 0 := by
  cases x with
  | finite q => simp [zero_def]
  | _ => rfl

protected theorem mul_zero (x : Extended) : x * 0 = 0 := by
  cases x with
  | finite q => simp [zero_def]
  | _ => rfl

/-- A product with an infinity is that of the signs. -/
theorem limit_mul (s : SignType) (x : Extended) : limit s * x = limit (s * x.signum) := by
  by_cases hs : s = 0
  · rw [hs, limit_zero, Extended.zero_mul, MulZeroClass.zero_mul, limit_zero]
  · rw [mul_eq_limit (.inl (isInfinite_limit hs)), signum_limit]

theorem signum_mul (x y : Extended) : (x * y).signum = x.signum * y.signum := by
  by_cases h : x.isInfinite = true ∨ y.isInfinite = true
  · rw [mul_eq_limit h, signum_limit]
  · cases x <;> cases y <;> simp at h
    exact sign_mul _ _

protected theorem mul_comm (x y : Extended) : x * y = y * x := by
  by_cases h : x.isInfinite = true ∨ y.isInfinite = true
  · rw [mul_eq_limit h, mul_eq_limit h.symm, mul_comm]
  · cases x <;> cases y <;> simp at h
    simp [mul_comm]

theorem mul_limit (x : Extended) (s : SignType) : x * limit s = limit (x.signum * s) := by
  rw [Extended.mul_comm, limit_mul, mul_comm]

protected theorem mul_assoc (x y z : Extended) : x * y * z = x * (y * z) := by
  obtain ⟨a, rfl⟩ | ⟨s, rfl⟩ := x.eq_finite_or_limit
  · obtain ⟨b, rfl⟩ | ⟨s, rfl⟩ := y.eq_finite_or_limit
    · obtain ⟨c, rfl⟩ | ⟨s, rfl⟩ := z.eq_finite_or_limit
      · simp [mul_assoc]
      · simp only [mul_limit, signum_mul, mul_assoc]
    · simp only [limit_mul, mul_limit, mul_assoc]
  · simp only [limit_mul, signum_mul, mul_assoc]

protected theorem neg_mul (x y : Extended) : -(x * y) = -x * y := by
  obtain ⟨a, rfl⟩ | ⟨s, rfl⟩ := x.eq_finite_or_limit
  · obtain ⟨b, rfl⟩ | ⟨s, rfl⟩ := y.eq_finite_or_limit
    · simp
    · rw [mul_limit, mul_limit, neg_limit, signum_neg, neg_mul]
  · rw [neg_limit, limit_mul, limit_mul, neg_limit, neg_mul]

/-! ### Distributivity -/

theorem isInfinite_mul (hx : x ≠ 0) (hy : y.isInfinite = true) : (x * y).isInfinite = true := by
  rw [mul_eq_limit (.inr hy)]
  apply isInfinite_limit
  apply mul_ne_zero
  · exact mt signum_eq_zero_iff.mp hx
  · intro h
    rw [signum_eq_zero_iff.mp h] at hy
    simp [zero_def] at hy

/-- A product with a sum that an infinity decides. -/
theorem mul_add_of_isInfinite (hx : x ≠ 0) (hy : y.isInfinite = true) (hyz : ¬ Opposite y z)
    (h : ¬ Opposite (x * y) (x * z)) : x * (y + z) = x * y + x * z := by
  rw [add_eq_left hy hyz, add_eq_left (isInfinite_mul hx hy) h]

theorem eq_of_limit_not_opposite {s t : SignType} (hs : s ≠ 0) (ht : t ≠ 0)
    (h : ¬ Opposite (limit s) (limit t)) : s = t := by
  cases s <;> cases t <;> simp_all [Opposite, limit]

theorem sign_add_of_sign_eq {a b : Rat} (h : SignType.sign a = SignType.sign b) :
    SignType.sign (a + b) = SignType.sign a := by
  obtain ha | rfl | ha := lt_trichotomy a 0
  · rw [sign_neg ha] at h ⊢
    exact sign_neg (add_neg ha (sign_eq_neg_one_iff.mp h.symm))
  · rw [zero_add, h]
  · rw [sign_pos ha] at h ⊢
    exact sign_pos (add_pos ha (sign_eq_one_iff.mp h.symm))

/-- An infinity times a sum of rational numbers that it does not send to opposite infinities. -/
theorem limit_mul_add {s : SignType} (hs : s ≠ 0) (a b : Rat)
    (h : ¬ Opposite (limit s * finite a) (limit s * finite b)) :
    limit s * (finite a + finite b) = limit s * finite a + limit s * finite b := by
  by_cases ha : a = 0
  · rw [ha, ← zero_def, Extended.zero_add, Extended.mul_zero, Extended.zero_add]
  by_cases hb : b = 0
  · rw [hb, ← zero_def, Extended.add_zero, Extended.mul_zero, Extended.add_zero]
  rw [limit_mul, limit_mul] at h
  have hsign : SignType.sign a = SignType.sign b := by
    apply mul_left_cancel₀ hs
    apply eq_of_limit_not_opposite _ _ h
    · exact mul_ne_zero hs (sign_ne_zero.mpr ha)
    · exact mul_ne_zero hs (sign_ne_zero.mpr hb)
  have hsum : (finite a + finite b).signum = (finite b).signum :=
    (sign_add_of_sign_eq hsign).trans hsign
  have hterm : (finite a).signum = (finite b).signum := hsign
  rw [limit_mul, limit_mul, limit_mul, hsum, hterm, limit_add_self]

/-- Products with a sum that is taken, and whose products have a sum. -/
protected theorem mul_add (hyz : ¬ Opposite y z) (h : ¬ Opposite (x * y) (x * z)) :
    x * (y + z) = x * y + x * z := by
  by_cases hx : x = 0
  · rw [hx, Extended.zero_mul, Extended.zero_mul, Extended.zero_mul, Extended.zero_add]
  by_cases hy : y.isInfinite = true
  · exact mul_add_of_isInfinite hx hy hyz h
  by_cases hz : z.isInfinite = true
  · rw [Extended.add_comm, Extended.add_comm (x * y)]
    exact mul_add_of_isInfinite hx hz (mt opposite_comm.mp hyz) (mt opposite_comm.mp h)
  obtain ⟨b, rfl⟩ := isFinite_iff.mp (by simpa using hy)
  obtain ⟨c, rfl⟩ := isFinite_iff.mp (by simpa using hz)
  obtain ⟨a, rfl⟩ | ⟨s, rfl⟩ := x.eq_finite_or_limit
  · simp [mul_add]
  · apply limit_mul_add _ b c h
    rintro rfl
    exact hx rfl

/-! ### Order -/

theorem negInf_mul_finite {c : Rat} (hc : 0 < c) : negInf * finite c = negInf := by
  rw [Extended.mul_comm, finite_mul_negInf_of_pos hc]

theorem posInf_mul_finite {c : Rat} (hc : 0 < c) : posInf * finite c = posInf := by
  rw [Extended.mul_comm, finite_mul_posInf hc]

theorem mul_finite_le_mul_finite {c : Rat} (h : x ≤ y) (hc : 0 < c) :
    x * finite c ≤ y * finite c := by
  cases x with
  | negInf => rw [negInf_mul_finite hc]; exact negInf_le _
  | posInf => cases y <;> first | exact Extended.le_refl _ | simp at h
  | finite a =>
    cases y with
    | negInf => exact absurd h (not_finite_le_negInf a)
    | posInf => rw [posInf_mul_finite hc]; exact le_posInf _
    | finite b => exact mul_le_mul_of_nonneg_right (finite_le_finite.mp h) hc.le

theorem mul_limit_le_mul_limit {s : SignType} (h : x ≤ y) (hs : 0 ≤ s) :
    x * limit s ≤ y * limit s := by
  rw [mul_limit, mul_limit]
  have hmono (t u : SignType) (htu : t ≤ u) : t * s ≤ u * s := by
    revert s t u
    decide
  exact limit_mono (hmono _ _ (signum_mono h))

protected theorem mul_le_mul_of_nonneg_right (h : x ≤ y) (hz : 0 ≤ z) : x * z ≤ y * z := by
  obtain ⟨c, rfl⟩ | ⟨s, rfl⟩ := z.eq_finite_or_limit
  · obtain rfl | hc := (finite_le_finite.mp hz).eq_or_lt
    · have hzero : finite (0 : Nat) = 0 := rfl
      rw [hzero, Extended.mul_zero, Extended.mul_zero]
      exact Extended.le_refl 0
    · exact mul_finite_le_mul_finite h hc
  · apply mul_limit_le_mul_limit h
    have hs := signum_mono hz
    rwa [signum_limit] at hs

/-! ## Sums of a list -/

instance : Std.Commutative (fun x y : Extended => x + y) := ⟨Extended.add_comm⟩

instance : Std.Associative (fun x y : Extended => x + y) := ⟨Extended.add_assoc⟩

/-- Adding up from right to left gives the same sum. -/
theorem sum_eq_foldr (xs : List Extended) : sum xs = xs.foldr (· + ·) 0 := by
  rw [sum_eq_foldl, List.foldl_eq_foldr]

theorem sum_perm (h : xs.Perm ys) : sum xs = sum ys := by
  rw [sum_eq_foldl, sum_eq_foldl]
  exact h.foldl_eq 0

theorem sum_singleton (x : Extended) : sum [x] = x := by
  rw [← List.nil_append [x], sum_append_singleton, sum_nil, Extended.zero_add]

/-- Positive infinity wins. -/
theorem sum_eq_posInf_iff : sum xs = posInf ↔ posInf ∈ xs := by
  induction xs using List.reverseRecOn with
  | nil => simp [zero_def]
  | append_singleton xs x ih =>
    have hadd (s : Extended) : s + x = posInf ↔ s = posInf ∨ posInf = x := by
      cases s <;> cases x <;> simp [negInf_add_of_ne]
    rw [sum_append_singleton, hadd, ih, List.mem_append, List.mem_singleton]

/-- Where nothing is positive infinity, a sum is negative infinity if one of its items is. -/
theorem sum_eq_negInf_iff {xs : List Extended} (h : ∀ x ∈ xs, x ≠ posInf) :
    sum xs = negInf ↔ negInf ∈ xs := by
  suffices hsum : sum xs ≠ posInf ∧ (sum xs = negInf ↔ negInf ∈ xs) from hsum.2
  induction xs using List.reverseRecOn with
  | nil => simp [zero_def]
  | append_singleton xs x ih =>
    obtain ⟨hne, hiff⟩ := ih fun y hy => h y (by simp [hy])
    have hx := h x (by simp)
    rw [sum_append_singleton, List.mem_append, List.mem_singleton, ← hiff]
    generalize sum xs = s at hne ⊢
    cases s <;> cases x <;> simp_all [HAdd.hAdd, Add.add, Extended.add]

/-! ### Opposite infinities -/

theorem sumsWell_append_singleton :
    SumsWell (xs ++ [x]) ↔ SumsWell xs ∧ ¬ Opposite (sum xs) x := by
  constructor
  · intro h
    constructor
    · rintro done y rest rfl
      exact h done y (rest ++ [x]) (by simp)
    · exact h xs x [] rfl
  · rintro ⟨hxs, hx⟩ done y rest heq
    obtain rfl | ⟨rest, z, rfl⟩ := rest.eq_nil_or_concat
    · obtain ⟨rfl, rfl⟩ := List.append_singleton_inj.mp heq
      exact hx
    · rw [List.concat_eq_append, ← List.cons_append, ← List.append_assoc] at heq
      exact hxs done y rest (List.append_inj_left' heq rfl)

/-- A list can be added up exactly if at most one of the infinities is among its items. -/
theorem sumsWell_iff : SumsWell xs ↔ ¬ (posInf ∈ xs ∧ negInf ∈ xs) := by
  induction xs using List.reverseRecOn with
  | nil =>
    have hnil : SumsWell [] := by
      rintro done x rest heq
      simp at heq
    simp [hnil]
  | append_singleton xs x ih =>
    rw [sumsWell_append_singleton, ih]
    by_cases hpos : posInf ∈ xs
    · have hsum := sum_eq_posInf_iff.mpr hpos
      cases x <;> simp [Opposite, hpos, hsum]
    · have hsum : sum xs ≠ posInf := mt sum_eq_posInf_iff.mp hpos
      have hneg := sum_eq_negInf_iff fun x hx hxpos => hpos (hxpos ▸ hx)
      cases x <;> simp [Opposite, hpos, hsum, hneg]

theorem SumsWell.perm (hxs : SumsWell xs) (h : xs.Perm ys) : SumsWell ys := by
  rw [sumsWell_iff] at hxs ⊢
  rwa [← h.mem_iff, ← h.mem_iff]

/-- Extended numbers obey the laws of arithmetic, as long as no sum adds opposite infinities: adding
and multiplying can be reordered and regrouped, multiplying distributes over adding, signs can be
moved and the order is kept. Running totals and sums of lists take the same sums, and a list with at
most one of the infinities can be added up in any order. -/
theorem arithmetic_laws (x y z : Extended) (xs ys : List Extended) :
    (x + y = y + x ∧ x + y + z = x + (y + z) ∧
      (¬ Opposite x y ∧ ¬ Opposite (x + y) z ↔ ¬ Opposite y z ∧ ¬ Opposite x (y + z))) ∧
    (x * y = y * x ∧ x * y * z = x * (y * z) ∧ 0 * x = 0) ∧
    (¬ Opposite y z → ¬ Opposite (x * y) (x * z) → x * (y + z) = x * y + x * z) ∧
    ((¬ Opposite x y → -(x + y) = -x + -y) ∧ -(x * y) = -x * y) ∧
    ((x ≤ y → x + z ≤ y + z) ∧ (x ≤ y → 0 ≤ z → x * z ≤ y * z)) ∧
    (x.accumulate y = x + y ∧ x.deduct y = x - y ∧ x - y = x + -y ∧
      x.addProduct y z = x + y * z ∧ sum xs = xs.foldr (· + ·) 0) ∧
    (SumsWell xs ↔ ¬ (posInf ∈ xs ∧ negInf ∈ xs)) ∧
    (SumsWell xs → xs.Perm ys → SumsWell ys ∧ sum xs = sum ys) := by
  refine ⟨⟨x.add_comm y, x.add_assoc y z, opposite_assoc⟩,
    ⟨x.mul_comm y, x.mul_assoc y z, x.zero_mul⟩, Extended.mul_add,
    ⟨Extended.neg_add, x.neg_mul y⟩, ?_, ?_, sumsWell_iff, ?_⟩
  · constructor
    · intro hxy
      exact Extended.add_le_add_right hxy z
    · intro hxy hz
      exact Extended.mul_le_mul_of_nonneg_right hxy hz
  · exact ⟨accumulate_eq x y, deduct_eq x y, sub_eq_add_neg x y, addProduct_eq x y z,
      sum_eq_foldr xs⟩
  · intro hxs h
    exact ⟨hxs.perm h, sum_perm h⟩

end Extended

end CertifiedLp
