/-!
# Extended rational numbers

The numbers of a linear program are exact: rational numbers, together with the two infinities that
stand for a bound or a side that is absent. The infinities belong to the type, so that no other
module has to wrap a bound into an option.

The order is the natural one. Addition and multiplication extend those of the rational numbers;
zero times an infinity is zero, which is what makes a sum of products over a sparse row agree with
the sum over all columns. Adding opposite infinities has no meaning, and callers never do it.
-/

namespace CertifiedLp

/-- A rational number or one of the two infinities. -/
inductive Extended where
  /-- Smaller than every rational number. -/
  | negInf
  /-- A rational number. -/
  | finite (value : Rat)
  /-- Larger than every rational number. -/
  | posInf
  deriving DecidableEq

namespace Extended

instance : Coe Rat Extended := ⟨finite⟩

instance : OfNat Extended n := ⟨finite (n : Rat)⟩

instance : Inhabited Extended := ⟨0⟩

/-- An integer as a value. -/
def ofInt (n : Int) : Extended := finite (n : Rat)

/-- The quotient of two integers, which does not exist when the second is zero. -/
def ofFraction? (numerator denominator : Int) : Option Extended :=
  if denominator = 0 then none else some (finite (Rat.divInt numerator denominator))

/-- The rational number, unless the value is an infinity. -/
def finite? : Extended → Option Rat
  | finite q => some q
  | _ => none

@[simp] theorem finite?_finite (q : Rat) : (finite q).finite? = some q := rfl

@[simp] theorem finite?_eq_some {x : Extended} {q : Rat} : x.finite? = some q ↔ x = finite q := by
  cases x <;> simp [finite?]

/-- Whether the value is a rational number. -/
def isFinite (x : Extended) : Bool := x.finite?.isSome

/-- Whether the value is one of the two infinities. -/
def isInfinite (x : Extended) : Bool := !x.isFinite

@[simp] theorem isFinite_finite (q : Rat) : (finite q).isFinite = true := rfl
@[simp] theorem isFinite_negInf : negInf.isFinite = false := rfl
@[simp] theorem isFinite_posInf : posInf.isFinite = false := rfl

theorem isFinite_iff {x : Extended} : x.isFinite = true ↔ ∃ q, x = finite q := by
  cases x <;> simp [isFinite, finite?]

/-! ## Order -/

/-- Negative infinity is below and positive infinity above everything else. -/
protected def le : Extended → Extended → Prop
  | negInf, _ => True
  | _, posInf => True
  | finite a, finite b => a ≤ b
  | _, _ => False

instance : LE Extended := ⟨Extended.le⟩

instance (x y : Extended) : Decidable (x ≤ y) := by
  change Decidable (Extended.le x y)
  cases x <;> cases y <;> dsimp only [Extended.le] <;> infer_instance

/-- One value is below another exactly when the reverse comparison fails: the order is total. -/
instance : LT Extended := ⟨fun x y => ¬ y ≤ x⟩

instance (x y : Extended) : Decidable (x < y) := inferInstanceAs (Decidable (¬ y ≤ x))

theorem lt_iff_not_le {x y : Extended} : x < y ↔ ¬ y ≤ x := Iff.rfl

@[simp] theorem negInf_le (x : Extended) : negInf ≤ x := by cases x <;> trivial

@[simp] theorem le_posInf (x : Extended) : x ≤ posInf := by cases x <;> trivial

@[simp] theorem finite_le_finite {a b : Rat} : finite a ≤ finite b ↔ a ≤ b := Iff.rfl

@[simp] theorem finite_lt_finite {a b : Rat} : finite a < finite b ↔ a < b := by
  rw [lt_iff_not_le, finite_le_finite, Rat.not_le]

@[simp] theorem not_finite_le_negInf (a : Rat) : ¬ finite a ≤ negInf := id

@[simp] theorem not_posInf_le_finite (a : Rat) : ¬ posInf ≤ finite a := id

@[simp] theorem not_posInf_le_negInf : ¬ posInf ≤ negInf := id

protected theorem le_refl (x : Extended) : x ≤ x := by
  cases x <;> simp

protected theorem le_total (x y : Extended) : x ≤ y ∨ y ≤ x := by
  cases x <;> cases y <;> simp [Rat.le_total]

protected theorem le_trans {x y z : Extended} (hxy : x ≤ y) (hyz : y ≤ z) : x ≤ z := by
  cases x <;> cases y <;> cases z <;> simp_all
  exact Rat.le_trans hxy hyz

protected theorem le_antisymm {x y : Extended} (hxy : x ≤ y) (hyx : y ≤ x) : x = y := by
  cases x <;> cases y <;> simp_all
  exact Rat.le_antisymm hxy hyx

/-- The smaller of two values. -/
instance : Min Extended := ⟨fun x y => if x ≤ y then x else y⟩

instance : Ord Extended := ⟨fun x y => if x < y then .lt else if y < x then .gt else .eq⟩

/-- Strictly above zero. -/
def isPositive (x : Extended) : Bool := decide (0 < x)

/-- Strictly below zero. -/
def isNegative (x : Extended) : Bool := decide (x < 0)

/-- Equal to zero. -/
def isZero (x : Extended) : Bool := decide (x = 0)

/-- The comparison with zero. -/
def sign (x : Extended) : Ordering :=
  if x.isPositive then .gt else if x.isNegative then .lt else .eq

/-- Whether the value is an integer; an infinity is none. -/
def isIntegral : Extended → Bool
  | finite q => q.den == 1
  | _ => false

/-- The distance from zero. -/
def abs : Extended → Extended
  | finite q => finite (if q < 0 then -q else q)
  | _ => posInf

/-! ## Arithmetic -/

/-- The sum. Positive infinity wins over negative infinity, a case that callers avoid. -/
protected def add : Extended → Extended → Extended
  | finite a, finite b => finite (a + b)
  | posInf, _ => posInf
  | _, posInf => posInf
  | _, _ => negInf

instance : Add Extended := ⟨Extended.add⟩

/-- The value on the other side of zero. -/
protected def neg : Extended → Extended
  | negInf => posInf
  | finite a => finite (-a)
  | posInf => negInf

instance : Neg Extended := ⟨Extended.neg⟩

/-- Subtracting a value adds its opposite. -/
instance : Sub Extended := ⟨fun x y => x + -y⟩

/-- The product. Zero times anything is zero, and otherwise the signs decide. -/
protected def mul : Extended → Extended → Extended
  | finite a, finite b => finite (a * b)
  | x, y =>
    if x.isZero || y.isZero then 0
    else if x.isPositive == y.isPositive then posInf
    else negInf

instance : Mul Extended := ⟨Extended.mul⟩

@[simp] theorem finite_add_finite (a b : Rat) : finite a + finite b = finite (a + b) := rfl

@[simp] theorem neg_finite (a : Rat) : -finite a = finite (-a) := rfl

@[simp] theorem neg_negInf : -negInf = posInf := rfl

@[simp] theorem neg_posInf : -posInf = negInf := rfl

theorem sub_eq_add_neg (x y : Extended) : x - y = x + -y := rfl

@[simp] theorem finite_sub_finite (a b : Rat) : finite a - finite b = finite (a - b) := by
  simp [sub_eq_add_neg, Rat.sub_eq_add_neg]

@[simp] theorem finite_mul_finite (a b : Rat) : finite a * finite b = finite (a * b) := rfl

theorem zero_def : (0 : Extended) = finite 0 := rfl

@[simp] theorem isZero_iff {x : Extended} : x.isZero = true ↔ x = 0 := by simp [isZero]

@[simp] theorem isPositive_iff {x : Extended} : x.isPositive = true ↔ 0 < x := by simp [isPositive]

@[simp] theorem isNegative_iff {x : Extended} : x.isNegative = true ↔ x < 0 := by simp [isNegative]

protected theorem neg_neg (x : Extended) : - -x = x := by
  cases x <;> simp

/-! ## Running totals -/

/-- A total with one more value. Rational numbers are added right away, without a look at the
infinities. -/
def accumulate : Extended → Extended → Extended
  | finite total, finite value => finite (total + value)
  | total, value => total + value

/-- A total without a value. Rational numbers are subtracted right away, and an infinity is added
with its sign changed. -/
def deduct : Extended → Extended → Extended
  | finite total, finite value => finite (total - value)
  | total, value => total + -value

theorem accumulate_eq (x y : Extended) : x.accumulate y = x + y := by
  cases x <;> cases y <;> rfl

theorem deduct_eq (x y : Extended) : x.deduct y = x - y := by
  cases x <;> cases y <;> first | rfl | exact (finite_sub_finite _ _).symm

/-- A total with the product of two values added, one step of evaluating a row. -/
def addProduct (x a b : Extended) : Extended := x.accumulate (a * b)

theorem addProduct_eq (x a b : Extended) : x.addProduct a b = x + a * b := accumulate_eq _ _

/-- The sum of a list of values, from left to right. -/
def sum (xs : List Extended) : Extended := xs.foldl accumulate 0

theorem sum_eq_foldl (xs : List Extended) : sum xs = xs.foldl (· + ·) 0 := by
  rw [sum, show accumulate = (· + ·) from funext fun x => funext (accumulate_eq x)]

@[simp] theorem sum_nil : sum [] = 0 := rfl

theorem sum_append_singleton (xs : List Extended) (x : Extended) :
    sum (xs ++ [x]) = sum xs + x := by
  rw [sum, List.foldl_append, ← sum, List.foldl_cons, List.foldl_nil, accumulate_eq]

end Extended

end CertifiedLp
