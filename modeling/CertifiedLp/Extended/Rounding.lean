import CertifiedLp.Binary64

/-!
# Rounding values to doubles

A rational number is rounded to the nearest double by choosing the power of two of its last
fraction bit, dividing by it, and rounding the quotient to an integer with ties to even. Rounding
down or up moves the nearest double by one step where it lies on the wrong side of the value.
-/

namespace CertifiedLp

/-- The quotient of two natural numbers, rounded to the nearest integer; a tie goes to the even
one. -/
def roundHalfEven (n d : Nat) : Nat :=
  let quotient := n / d
  let rest := 2 * (n % d)
  if rest < d || (rest == d && quotient % 2 == 0) then quotient else quotient + 1

/-- The rounded quotient is at most half a unit away. -/
theorem roundHalfEven_near {n d : Nat} (hd : 0 < d) :
    2 * (roundHalfEven n d * d) ≤ 2 * n + d ∧ 2 * n ≤ 2 * (roundHalfEven n d * d) + d := by
  have hdiv := Nat.div_add_mod n d
  have hrest := Nat.mod_lt n hd
  have hmul : d * (n / d) = n / d * d := Nat.mul_comm ..
  unfold roundHalfEven
  dsimp only
  split
  · next h =>
    simp only [Bool.or_eq_true, decide_eq_true_eq, Bool.and_eq_true, beq_iff_eq] at h
    omega
  · next h =>
    simp only [Bool.or_eq_true, decide_eq_true_eq, Bool.and_eq_true, beq_iff_eq, not_or,
      Nat.not_lt] at h
    rw [Nat.add_mul, Nat.one_mul]
    omega

/-- A quotient in the middle between two integers is rounded to the even one. -/
theorem roundHalfEven_tie {n d : Nat} (h : 2 * (n % d) = d) : roundHalfEven n d % 2 = 0 := by
  unfold roundHalfEven
  dsimp only
  split <;> simp_all
  omega

/-- Multiply the numerator or the denominator of `n / d` such that the fraction is divided by
`2 ^ e`. -/
def divideByPower (n d : Nat) (e : Int) : Nat × Nat :=
  if 0 ≤ e then (n, d * Nat.pow 2 e.toNat) else (n * Nat.pow 2 (-e).toNat, d)

/-- The largest `k` with `2 ^ k ≤ n / d`, for positive `n` and `d`. The lengths of the two numbers
determine it up to one. -/
def floorLog2 (n d : Nat) : Int :=
  let k : Int := (n.log2 : Int) - d.log2
  let (n', d') := divideByPower n d k
  if d' ≤ n' then k else k - 1

namespace Binary64

/-- The power of two that the last bit of a double near `n / d` stands for. -/
def lastBitExponent (n d : Nat) : Int := max (-1074) (floorLog2 n d - 52)

/-- The magnitude bits of the double nearest to `n / d`. A quotient that is rounded up to the next
power of two carries into the exponent, and what is too large becomes infinite. -/
def nearestMagnitudeBits (n d : Nat) : Nat :=
  if n = 0 then 0
  else
    let e := lastBitExponent n d
    let (n', d') := divideByPower n d e
    min infinityBits ((e + 1074).toNat * fractionModulus + roundHalfEven n' d')

/-- The double nearest to a rational number. A negative number that is too small becomes negative
zero. -/
def nearest (q : Rat) : Binary64 :=
  ofMagnitudeBits (decide (q < 0)) (nearestMagnitudeBits q.num.natAbs q.den)

/-- The largest double that is not above a rational number. -/
def below (q : Rat) : Binary64 :=
  let x := nearest q
  match x.finite? with
  | some represented => if q < represented then x.nextDown else x
  | none => if x.isSigned then x else largest

/-- The smallest double that is not below a rational number. -/
def above (q : Rat) : Binary64 :=
  let x := nearest q
  match x.finite? with
  | some represented => if represented < q then x.nextUp else x
  | none => if x.isSigned then smallest else x

end Binary64

namespace Extended

/-- The nearest double; the infinities are doubles themselves. -/
def toNearest : Extended → Binary64
  | negInf => .negInf
  | finite q => .nearest q
  | posInf => .posInf

/-- The largest double that is not above the value. -/
def toBelow : Extended → Binary64
  | negInf => .negInf
  | finite q => .below q
  | posInf => .posInf

/-- The smallest double that is not below the value. -/
def toAbove : Extended → Binary64
  | negInf => .negInf
  | finite q => .above q
  | posInf => .posInf

end Extended

end CertifiedLp
