import Mathlib
import CertifiedLp.Extended.Rounding
import CertifiedLp.Proofs.Extended
import CertifiedLp.Proofs.Binary64.Scale

/-!
# Directed rounding

Rounding to the nearest double is correct: on the scale without ends, no other mark is closer to
the rational number, and a tie goes to the even rank. The doubles cut the scale off at the
infinities.

Correct rounding leaves the number between the two neighbours of the nearest rank. So one
comparison and one step give the rounding in a direction, and it is the best one: the doubles that
are not above the value are those up to the rank that rounding down takes.
-/

namespace CertifiedLp

/-! ## Division and powers of two -/

theorem roundHalfEven_cases {n d : Nat} (hd : 0 < d) :
    (roundHalfEven n d = n / d ∧ 2 * (n % d) ≤ d ∧ (2 * (n % d) = d → Even (n / d))) ∨
    (roundHalfEven n d = n / d + 1 ∧ d ≤ 2 * (n % d) ∧
      (2 * (n % d) = d → Even (n / d + 1))) := by
  have htie := roundHalfEven_tie (n := n) (d := d)
  rw [← Nat.even_iff] at htie
  have hrest := Nat.mod_lt n hd
  unfold roundHalfEven at htie ⊢
  dsimp only at htie ⊢
  split at htie
  · next h =>
    rw [if_pos h]
    simp only [Bool.or_eq_true, decide_eq_true_eq, Bool.and_eq_true, beq_iff_eq] at h
    exact .inl ⟨rfl, by omega, htie⟩
  · next h =>
    rw [if_neg h]
    simp only [Bool.or_eq_true, decide_eq_true_eq, not_or, Nat.not_lt] at h
    exact .inr ⟨rfl, h.1, htie⟩

theorem divideByPower_spec (n : Nat) {d : Nat} (hd : 0 < d) (e : Int) :
    0 < (divideByPower n d e).2 ∧
    ((divideByPower n d e).1 : Rat) / (divideByPower n d e).2 = n / d / 2 ^ e := by
  rw [divideByPower]
  split
  · next h =>
    obtain ⟨k, rfl⟩ := Int.eq_ofNat_of_zero_le h
    refine ⟨Nat.mul_pos hd (Nat.pow_pos two_pos), ?_⟩
    simp [div_div]
  · next h =>
    obtain ⟨k, rfl⟩ : ∃ k : Nat, e = -k := ⟨(-e).toNat, by omega⟩
    refine ⟨hd, ?_⟩
    simp [div_eq_mul_inv, mul_right_comm]

theorem floorLog2_spec {n d : Nat} (hn : 0 < n) (hd : 0 < d) :
    (2 : Rat) ^ floorLog2 n d ≤ n / d ∧ (n : Rat) / d < 2 ^ (floorLog2 n d + 1) := by
  have hd' : (0 : Rat) < d := by exact_mod_cast hd
  have hnlow : (2 : Rat) ^ (n.log2 : Int) ≤ n := by exact_mod_cast Nat.log2_self_le hn.ne'
  have hnhigh : (n : Rat) < 2 ^ ((n.log2 : Int) + 1) := by exact_mod_cast Nat.lt_log2_self
  have hdlow : (2 : Rat) ^ (d.log2 : Int) ≤ d := by exact_mod_cast Nat.log2_self_le hd.ne'
  have hdhigh : (d : Rat) < 2 ^ ((d.log2 : Int) + 1) := by exact_mod_cast Nat.lt_log2_self
  obtain ⟨k, hk⟩ : ∃ k : Int, k = n.log2 - d.log2 := ⟨_, rfl⟩
  -- The lengths alone leave two powers of two.
  have hlow : (2 : Rat) ^ (k - 1) ≤ n / d := by
    rw [le_div_iff₀ hd']
    calc (2 : Rat) ^ (k - 1) * d ≤ 2 ^ (k - 1) * 2 ^ ((d.log2 : Int) + 1) := by gcongr
      _ = 2 ^ (n.log2 : Int) := by
        rw [← zpow_add₀ two_ne_zero]
        congr 1
        omega
      _ ≤ n := hnlow
  have hhigh : (n : Rat) / d < 2 ^ (k + 1) := by
    rw [div_lt_iff₀ hd']
    calc (n : Rat) < 2 ^ ((n.log2 : Int) + 1) := hnhigh
      _ = 2 ^ (k + 1) * 2 ^ (d.log2 : Int) := by
        rw [← zpow_add₀ two_ne_zero]
        congr 1
        omega
      _ ≤ 2 ^ (k + 1) * d := by gcongr
  obtain ⟨hpos, hratio⟩ := divideByPower_spec n hd k
  have hstep : (divideByPower n d k).2 ≤ (divideByPower n d k).1 ↔ (2 : Rat) ^ k ≤ n / d := by
    rw [← one_le_div₀ (by positivity : (0 : Rat) < 2 ^ k), ← hratio,
      one_le_div₀ (by exact_mod_cast hpos)]
    exact_mod_cast Iff.rfl
  rw [floorLog2]
  dsimp only
  rw [← hk]
  split
  · next h => exact ⟨hstep.1 h, hhigh⟩
  · next h =>
    rw [hstep, not_le] at h
    exact ⟨hlow, by simpa using h⟩

namespace Binary64

/-! ## The nearest mark -/

/-- A rank whose mark is closest to a rational number. If there are two, it is the even one. -/
structure IsNearest (q : Rat) (z : Int) : Prop where
  /-- No other mark is closer. -/
  closest : ∀ y, |mark z - q| ≤ |mark y - q|
  /-- In a tie, the rank is even. -/
  even : ∀ y, y ≠ z → |mark y - q| = |mark z - q| → Even z

variable {q : Rat} {z : Int}

theorem IsNearest.neg (h : IsNearest q z) : IsNearest (-q) (-z) := by
  have hdistance (y : Int) : |mark (-y) - -q| = |mark y - q| := by
    rw [mark_neg, ← neg_sub', abs_neg]
  refine ⟨fun y => ?_, fun y hy htie => ?_⟩
  · have hclose := h.closest (-y)
    rwa [← hdistance z, ← hdistance (-y), neg_neg] at hclose
  · rw [hdistance, ← neg_neg y, hdistance] at htie
    exact (h.even (-y) (by omega) htie).neg

/-- The number is above the mark before its nearest one. -/
theorem IsNearest.mark_lt (h : IsNearest q z) : mark (z - 1) < q := by
  have hbefore : mark (z - 1) < mark z := strictMono_mark (by omega)
  by_contra hq
  rw [not_lt] at hq
  have hclose := h.closest (z - 1)
  rw [abs_of_nonneg (by linarith), abs_of_nonneg (by linarith)] at hclose
  linarith

/-- The number is below the mark after its nearest one. -/
theorem IsNearest.lt_mark (h : IsNearest q z) : q < mark (z + 1) := by
  have hbefore := h.neg.mark_lt
  rw [← neg_add', mark_neg] at hbefore
  exact neg_lt_neg_iff.1 hbefore

/-- Between two marks, the lower one is nearest if it is not further away. -/
theorem isNearest_of_lower (hlow : mark z ≤ q) (hclose : q - mark z ≤ mark (z + 1) - q)
    (htie : q - mark z = mark (z + 1) - q → Even z) : IsNearest q z := by
  have hdistance : |mark z - q| = q - mark z := by
    rw [abs_sub_comm, abs_of_nonneg (sub_nonneg.2 hlow)]
  have hbefore {y : Int} (hy : y < z) : |mark z - q| < |mark y - q| := by
    have hmark := strictMono_mark hy
    rw [hdistance, abs_sub_comm, abs_of_nonneg (by linarith)]
    linarith
  have hafter {y : Int} (hy : z + 1 ≤ y) : mark (z + 1) - q ≤ |mark y - q| :=
    (sub_le_sub_right (strictMono_mark.monotone hy) q).trans (le_abs_self _)
  refine ⟨fun y => ?_, fun y hne hy => ?_⟩
  · obtain h | rfl | h := lt_trichotomy y z
    · exact (hbefore h).le
    · exact le_rfl
    · exact hdistance.trans_le (hclose.trans (hafter h))
  · obtain h | h := lt_or_gt_of_ne hne
    · exact absurd hy (hbefore h).ne'
    · apply htie
      have hreach := hafter h
      rw [hy, hdistance] at hreach
      exact le_antisymm hclose hreach

/-- Between two marks, the upper one is nearest if it is not further away. -/
theorem isNearest_of_upper (hhigh : q ≤ mark (z + 1)) (hclose : mark (z + 1) - q ≤ q - mark z)
    (htie : mark (z + 1) - q = q - mark z → Even (z + 1)) : IsNearest q (z + 1) := by
  have hnext : mark (-(z + 1) + 1) = -mark z := by
    rw [← mark_neg]
    congr 1
    ring
  have h : IsNearest (-q) (-(z + 1)) := by
    apply isNearest_of_lower
    · rw [mark_neg]
      linarith
    · rw [mark_neg, hnext]
      linarith
    · rw [mark_neg, hnext]
      intro h
      exact (htie (by linarith)).neg
  simpa using h.neg

/-! ## The nearest double -/

/-- In units of the last bit, a quotient has at most 53 bits before the point. It has all of them
unless the unit is the smallest one. -/
theorem lastBitExponent_spec {n d : Nat} (hn : 0 < n) (hd : 0 < d) :
    -1074 ≤ lastBitExponent n d ∧
    (n : Rat) / d / 2 ^ lastBitExponent n d < (2 * fractionModulus : Nat) ∧
    (lastBitExponent n d = -1074 ∨
      (fractionModulus : Rat) ≤ n / d / 2 ^ lastBitExponent n d) := by
  obtain ⟨hlow, hhigh⟩ := floorLog2_spec hn hd
  have hmodulus : (fractionModulus : Rat) = 2 ^ (52 : Int) := by
    norm_num [fractionModulus]
  have hunit : (0 : Rat) < 2 ^ lastBitExponent n d := by positivity
  refine ⟨le_max_left .., ?_, ?_⟩
  · rw [div_lt_iff₀ hunit]
    calc (n : Rat) / d < 2 ^ (floorLog2 n d + 1) := hhigh
      _ ≤ 2 ^ (53 + lastBitExponent n d) := by
        apply zpow_le_zpow_right₀ one_le_two
        rw [lastBitExponent]
        omega
      _ = (2 * fractionModulus : Nat) * 2 ^ lastBitExponent n d := by
        rw [zpow_add₀ two_ne_zero, Nat.cast_mul, hmodulus]
        norm_num
  · obtain h | h := le_total (floorLog2 n d - 52) (-1074)
    · exact .inl (max_eq_left h)
    · right
      rw [le_div_iff₀ hunit, hmodulus, ← zpow_add₀ two_ne_zero]
      rw [lastBitExponent, max_eq_right h]
      simpa using hlow

/-- A significand that is rounded to an integer gives the nearest mark. The two marks around the
number are those of its integer part and of the next integer, and the rest of the division measures
the distances to them. -/
theorem isNearest_roundHalfEven {n d k : Nat} (hd : 0 < d) (hpart : n / d < 2 * fractionModulus)
    (hleading : k = 0 ∨ fractionModulus ≤ n / d) :
    IsNearest (n / d * 2 ^ ((k : Int) - 1074))
      (k * fractionModulus + roundHalfEven n d : Nat) := by
  have hd' : (0 : Rat) < d := by exact_mod_cast hd
  have hunit : (0 : Rat) < 2 ^ ((k : Int) - 1074) := by positivity
  have hmark := magnitude_eq hpart.le hleading
  have hnext := magnitude_eq (k := k) (m := n / d + 1) (by omega) (by omega)
  rw [← mark_natCast] at hmark hnext
  rw [← add_assoc, Nat.cast_succ, Nat.cast_succ] at hnext
  obtain ⟨rest, hrest⟩ : ∃ rest : Rat, rest = (n % d : Nat) / d := ⟨_, rfl⟩
  have hquotient : (n : Rat) / d = (n / d : Nat) + rest := by
    rw [hrest, div_eq_iff hd'.ne', add_mul, div_mul_cancel₀ _ hd'.ne']
    exact_mod_cast (Nat.div_add_mod' n d).symm
  have hbelow : n / d * 2 ^ ((k : Int) - 1074) - mark ((k * fractionModulus + n / d : Nat) : Int) =
      rest * 2 ^ ((k : Int) - 1074) := by
    rw [hmark, hquotient]
    ring
  have habove : mark ((k * fractionModulus + n / d : Nat) + 1 : Int) -
      n / d * 2 ^ ((k : Int) - 1074) = (1 - rest) * 2 ^ ((k : Int) - 1074) := by
    rw [hnext, hquotient]
    ring
  have hhalfDown : rest ≤ 1 - rest ↔ 2 * (n % d) ≤ d := by
    rw [le_sub_iff_add_le, ← two_mul, hrest, mul_div_assoc', div_le_one hd']
    exact_mod_cast Iff.rfl
  have hhalfUp : 1 - rest ≤ rest ↔ d ≤ 2 * (n % d) := by
    rw [sub_le_iff_le_add, ← two_mul, hrest, mul_div_assoc', one_le_div hd']
    exact_mod_cast Iff.rfl
  have heven {m : Nat} (h : Even m) : Even ((k * fractionModulus + m : Nat) : Int) := by
    rw [Int.even_coe_nat]
    exact (Even.mul_left (by decide) k).add h
  obtain ⟨hround, hhalf, htie⟩ | ⟨hround, hhalf, htie⟩ := roundHalfEven_cases hd (n := n)
  · rw [hround]
    apply isNearest_of_lower
    · rw [← sub_nonneg, hbelow, hrest]
      positivity
    · rw [hbelow, habove, mul_le_mul_iff_left₀ hunit]
      exact hhalfDown.2 hhalf
    · rw [hbelow, habove, mul_left_inj' hunit.ne']
      intro h
      exact heven (htie (hhalf.antisymm (hhalfUp.1 h.ge)))
  · rw [hround, ← add_assoc, Nat.cast_succ]
    apply isNearest_of_upper
    · rw [← sub_nonneg, habove]
      have hless : rest < 1 := by
        rw [hrest, div_lt_one hd']
        exact_mod_cast Nat.mod_lt n hd
      exact mul_nonneg (sub_nonneg.2 hless.le) hunit.le
    · rw [hbelow, habove, mul_le_mul_iff_left₀ hunit]
      exact hhalfUp.2 hhalf
    · rw [hbelow, habove, mul_left_inj' hunit.ne']
      intro h
      have hupper := heven (htie ((hhalfDown.1 h.ge).antisymm hhalf))
      rwa [← add_assoc, Nat.cast_succ] at hupper

/-- The rank below the sign, before what is too large becomes infinite, is nearest. -/
theorem nearestMagnitudeBits_spec (n : Nat) {d : Nat} (hd : 0 < d) :
    ∃ z : Nat, IsNearest (n / d) z ∧ nearestMagnitudeBits n d = min infinityBits z := by
  obtain rfl | hn := Nat.eq_zero_or_pos n
  · refine ⟨0, ?_, by simp [nearestMagnitudeBits]⟩
    have hnext : mark 0 < mark (0 + 1) := strictMono_mark (by omega)
    have hzero : mark 0 = 0 := by simp [mark]
    rw [zero_add, hzero] at hnext
    apply isNearest_of_lower <;> simp [hzero, hnext.le]
  obtain ⟨hsmallest, hupper, hlower⟩ := lastBitExponent_spec hn hd
  rw [nearestMagnitudeBits, if_neg hn.ne']
  dsimp only
  generalize lastBitExponent n d = e at hsmallest hupper hlower ⊢
  obtain ⟨hpos, hratio⟩ := divideByPower_spec n hd e
  generalize (divideByPower n d e).1 = numerator at hratio ⊢
  generalize (divideByPower n d e).2 = denominator at hpos hratio ⊢
  have hpos' : (0 : Rat) < denominator := by exact_mod_cast hpos
  rw [← hratio] at hupper hlower
  rw [eq_div_iff (by positivity)] at hratio
  obtain ⟨k, rfl⟩ : ∃ k : Nat, e = k - 1074 := ⟨(e + 1074).toNat, by omega⟩
  have hk : ((k : Int) - 1074 + 1074).toNat = k := by omega
  refine ⟨_, hratio ▸ isNearest_roundHalfEven hpos ?_ ?_, by rw [hk]⟩
  · rw [div_lt_iff₀ hpos'] at hupper
    rw [Nat.div_lt_iff_lt_mul hpos]
    exact_mod_cast hupper
  · obtain h | h := hlower
    · exact .inl (by omega)
    · rw [le_div_iff₀ hpos'] at h
      rw [Nat.le_div_iff_mul_le hpos]
      exact .inr (by exact_mod_cast h)

theorem nearestMagnitudeBits_lt (n : Nat) {d : Nat} (hd : 0 < d) :
    nearestMagnitudeBits n d < signBit := by
  obtain ⟨z, -, hbits⟩ := nearestMagnitudeBits_spec n hd
  have hbound := infinityBits_lt_signBit
  omega

/-- The nearest double is at the nearest rank, or at the end that the nearest rank is behind. -/
theorem rank_nearest (q : Rat) : ∃ z, IsNearest q z ∧
    (nearest q).rank = max (-(infinityBits : Int)) (min (infinityBits : Int) z) := by
  obtain ⟨z, hz, hbits⟩ := nearestMagnitudeBits_spec q.num.natAbs q.den_pos
  rw [nearest, rank_ofMagnitudeBits _ (nearestMagnitudeBits_lt _ q.den_pos), hbits]
  have hq : (q.num.natAbs : Rat) / q.den = |q| := by
    rw [Nat.cast_natAbs, Int.cast_abs, ← abs_of_pos (Nat.cast_pos.2 q.den_pos : (0 : Rat) < q.den),
      ← abs_div, Rat.num_div_den]
  rw [hq] at hz
  obtain h | h := lt_or_ge q 0
  · refine ⟨-z, by simpa [abs_of_neg h] using hz.neg, ?_⟩
    rw [decide_eq_true h, if_pos rfl]
    omega
  · refine ⟨z, by simpa [abs_of_nonneg h] using hz, ?_⟩
    rw [decide_eq_false h.not_gt, if_neg Bool.false_ne_true]
    omega

theorem rank_nearest_bounds (q : Rat) :
    -infinityBits ≤ (nearest q).rank ∧ (nearest q).rank ≤ infinityBits := by
  obtain ⟨z, -, hrank⟩ := rank_nearest q
  omega

theorem rank_nearest_neg (q : Rat) : (nearest (-q)).rank = -(nearest q).rank := by
  rw [nearest, nearest, rank_ofMagnitudeBits _ (nearestMagnitudeBits_lt _ (-q).den_pos),
    rank_ofMagnitudeBits _ (nearestMagnitudeBits_lt _ q.den_pos), Rat.neg_num, Int.natAbs_neg,
    Rat.neg_den]
  obtain h | rfl | h := lt_trichotomy q 0
  · simp [h, h.le]
  · simp [nearestMagnitudeBits]
  · simp [h, h.le]

/-! ## Rounding in a direction -/

/-- A double at an end of the scale has the sign of the end. -/
theorem isSigned_iff {x : Binary64} (h : x.rank ≠ 0) : x.isSigned = true ↔ x.rank < 0 := by
  rw [rank] at h ⊢
  cases hsign : x.isSigned <;> simp_all [Nat.pos_iff_ne_zero]

/-- Rounding down steps from the nearest double where that one is above the number. -/
theorem rank_below (q : Rat) : (below q).rank =
    if -infinityBits < (nearest q).rank ∧ (nearest q).rank < infinityBits then
      if q < mark (nearest q).rank then (nearest q).rank - 1 else (nearest q).rank
    else min (nearest q).rank (infinityBits - 1) := by
  have hpos := infinityBits_pos
  have hbound := infinityBits_lt_signBit
  obtain ⟨hlow, hhigh⟩ := rank_nearest_bounds q
  rw [below, finite?_eq]
  by_cases hfinite : -infinityBits < (nearest q).rank ∧ (nearest q).rank < infinityBits
  · simp only [if_pos hfinite]
    split
    · exact rank_nextDown hfinite.1 hfinite.2.le
    · rfl
  · simp only [if_neg hfinite, isSigned_iff (x := nearest q) (by omega)]
    split
    · omega
    · rw [largest, rank_ofMagnitudeBits _ (by omega), if_neg Bool.false_ne_true]
      omega

/-- Rounding up steps from the nearest double where that one is below the number. -/
theorem rank_above (q : Rat) : (above q).rank =
    if -infinityBits < (nearest q).rank ∧ (nearest q).rank < infinityBits then
      if mark (nearest q).rank < q then (nearest q).rank + 1 else (nearest q).rank
    else max (nearest q).rank (1 - infinityBits) := by
  have hpos := infinityBits_pos
  have hbound := infinityBits_lt_signBit
  obtain ⟨hlow, hhigh⟩ := rank_nearest_bounds q
  rw [above, finite?_eq]
  by_cases hfinite : -infinityBits < (nearest q).rank ∧ (nearest q).rank < infinityBits
  · simp only [if_pos hfinite]
    split
    · exact rank_nextUp hfinite.1.le hfinite.2
    · rfl
  · simp only [if_neg hfinite, isSigned_iff (x := nearest q) (by omega)]
    split
    · rw [smallest, rank_ofMagnitudeBits _ (by omega), if_pos rfl]
      omega
    · omega

theorem atRank_le_finite (h : z < infinityBits) (hq : mark z ≤ q) : atRank z ≤ .finite q := by
  obtain hlow | hlow := lt_or_ge (-(infinityBits : Int)) z
  · rwa [atRank_of_lt hlow h, Extended.finite_le_finite]
  · rw [atRank_of_le hlow]
    exact Extended.negInf_le _

theorem finite_lt_atRank (h : -infinityBits < z) (hq : q < mark z) : .finite q < atRank z := by
  obtain hhigh | hhigh := lt_or_ge z (infinityBits : Int)
  · rwa [atRank_of_lt h hhigh, Extended.finite_lt_finite]
  · rw [atRank_of_ge hhigh]
    exact Extended.not_posInf_le_finite q

/-- The number is from the rank that rounding down takes up to the next one. -/
theorem below_spec (q : Rat) :
    -infinityBits ≤ (below q).rank ∧ (below q).rank < infinityBits ∧
    atRank (below q).rank ≤ .finite q ∧ .finite q < atRank ((below q).rank + 1) := by
  have hpos := infinityBits_pos
  obtain ⟨z, hz, hrank⟩ := rank_nearest q
  obtain hlow | hhigh | ⟨hlow, hhigh⟩ :
      z ≤ -infinityBits ∨ infinityBits ≤ z ∨ -infinityBits < z ∧ z < infinityBits := by omega
  · have hbelow : (below q).rank = -infinityBits := by
      rw [rank_below, if_neg (by omega)]
      omega
    rw [hbelow]
    refine ⟨le_rfl, by omega, ?_, finite_lt_atRank (by omega) ?_⟩
    · rw [atRank_of_le le_rfl]
      exact Extended.negInf_le _
    · exact hz.lt_mark.trans_le (strictMono_mark.monotone (by omega))
  · have hbelow : (below q).rank = infinityBits - 1 := by
      rw [rank_below, if_neg (by omega)]
      omega
    rw [hbelow]
    refine ⟨by omega, by omega, atRank_le_finite (by omega) ?_, ?_⟩
    · exact (strictMono_mark.monotone (by omega)).trans hz.mark_lt.le
    · rw [atRank_of_ge (by omega)]
      exact Extended.not_posInf_le_finite q
  · obtain rfl : z = (nearest q).rank := by omega
    rw [rank_below, if_pos ⟨hlow, hhigh⟩]
    split
    · next h =>
      refine ⟨by omega, by omega, atRank_le_finite (by omega) hz.mark_lt.le, ?_⟩
      rw [sub_add_cancel]
      exact finite_lt_atRank hlow h
    · next h =>
      refine ⟨hlow.le, hhigh, atRank_le_finite hhigh (not_lt.1 h), ?_⟩
      exact finite_lt_atRank (by omega) hz.lt_mark

/-- Rounding up mirrors rounding down. -/
theorem rank_above_eq_neg (q : Rat) : (above q).rank = -(below (-q)).rank := by
  simp only [rank_above, rank_below, rank_nearest_neg, mark_neg, neg_lt_neg_iff]
  split_ifs <;> omega

/-- A nearest mark that the number is equal to is the number's own. -/
theorem rank_nearest_mark {z : Int} (hlow : -infinityBits < z) (hhigh : z < infinityBits) :
    (nearest (mark z)).rank = z := by
  obtain ⟨y, hy, hrank⟩ := rank_nearest (mark z)
  have hclose := hy.closest z
  rw [sub_self, abs_zero, abs_nonpos_iff, sub_eq_zero, strictMono_mark.injective.eq_iff] at hclose
  omega

end Binary64

/-! ## The values of the doubles -/

namespace Extended

open Binary64

/-- A value that a double has. -/
def IsDouble (x : Extended) : Prop := ∃ d : Binary64, d.toExtended? = some x

theorem toExtended?_eq_some_iff {d : Binary64} {x : Extended} :
    d.toExtended? = some x ↔ (-infinityBits ≤ d.rank ∧ d.rank ≤ infinityBits) ∧
      atRank d.rank = x := by
  rw [toExtended?_eq, ← isNaN_eq_false_iff]
  cases d.isNaN <;> simp

theorem isDouble_iff {x : Extended} :
    x.IsDouble ↔ ∃ z : Int, -infinityBits ≤ z ∧ z ≤ infinityBits ∧ atRank z = x := by
  constructor
  · rintro ⟨d, hd⟩
    obtain ⟨⟨hlow, hhigh⟩, hx⟩ := toExtended?_eq_some_iff.1 hd
    exact ⟨d.rank, hlow, hhigh, hx⟩
  · rintro ⟨z, hlow, hhigh, hx⟩
    obtain ⟨d, rfl⟩ := exists_rank hlow hhigh
    exact ⟨d, toExtended?_eq_some_iff.2 ⟨⟨hlow, hhigh⟩, hx⟩⟩

theorem toExtended?_posInf : Binary64.posInf.toExtended? = some posInf := by
  rw [toExtended?_eq_some_iff, rank_posInf]
  exact ⟨by omega, atRank_of_ge le_rfl⟩

theorem toExtended?_negInf : Binary64.negInf.toExtended? = some negInf := by
  rw [toExtended?_eq_some_iff, rank_negInf]
  exact ⟨by omega, atRank_of_le le_rfl⟩

/-- Rounding down gives the largest double that is not above the value. -/
theorem isGreatest_toBelow (x : Extended) : ∃ v, x.toBelow.toExtended? = some v ∧
    IsGreatest {w | w.IsDouble ∧ w ≤ x} v := by
  cases x with
  | negInf =>
    refine ⟨negInf, toExtended?_negInf, ⟨⟨_, toExtended?_negInf⟩, negInf_le _⟩, ?_⟩
    rintro w ⟨-, hw⟩
    exact hw
  | posInf =>
    refine ⟨posInf, toExtended?_posInf, ⟨⟨_, toExtended?_posInf⟩, le_posInf _⟩, ?_⟩
    rintro w -
    exact le_posInf w
  | finite q =>
    obtain ⟨hlow, hhigh, hle, hlt⟩ := below_spec q
    have hvalue : (toBelow (finite q)).toExtended? = some (atRank (below q).rank) :=
      toExtended?_eq_some_iff.2 ⟨⟨hlow, hhigh.le⟩, rfl⟩
    refine ⟨_, hvalue, ⟨⟨_, hvalue⟩, hle⟩, ?_⟩
    rintro w ⟨hw, hwq⟩
    obtain ⟨z, -, -, rfl⟩ := isDouble_iff.1 hw
    apply atRank_mono
    by_contra hz
    have hnext : (below q).rank + 1 ≤ z := by omega
    exact hlt (Extended.le_trans (atRank_mono hnext) hwq)

theorem rank_toAbove (x : Extended) : x.toAbove.rank = -(-x).toBelow.rank := by
  cases x with
  | negInf => rw [toAbove, neg_negInf, toBelow, rank_negInf, rank_posInf]
  | posInf => rw [toAbove, neg_posInf, toBelow, rank_negInf, rank_posInf, neg_neg]
  | finite q => exact rank_above_eq_neg q

theorem IsDouble.neg {x : Extended} (h : x.IsDouble) : (-x).IsDouble := by
  obtain ⟨z, hlow, hhigh, rfl⟩ := isDouble_iff.1 h
  exact isDouble_iff.2 ⟨-z, by omega, by omega, atRank_neg z⟩

/-- Rounding up gives the smallest double that is not below the value. -/
theorem isLeast_toAbove (x : Extended) : ∃ v, x.toAbove.toExtended? = some v ∧
    IsLeast {w | w.IsDouble ∧ x ≤ w} v := by
  obtain ⟨v, hv, hgreatest⟩ := isGreatest_toBelow (-x)
  obtain ⟨hends, rfl⟩ := toExtended?_eq_some_iff.1 hv
  have hvalue : x.toAbove.toExtended? = some (-atRank (-x).toBelow.rank) := by
    rw [toExtended?_eq_some_iff, rank_toAbove]
    exact ⟨by omega, atRank_neg _⟩
  refine ⟨_, hvalue, ⟨⟨_, hvalue⟩, ?_⟩, ?_⟩
  · rw [← Extended.neg_le_neg_iff, Extended.neg_neg]
    exact hgreatest.1.2
  · rintro w ⟨hw, hxw⟩
    rw [← Extended.neg_le_neg_iff, Extended.neg_neg]
    exact hgreatest.2 ⟨hw.neg, Extended.neg_le_neg_iff.2 hxw⟩

/-- A value that a double has is rounded to a double of this value. -/
theorem IsDouble.toNearest_eq {x : Extended} (h : x.IsDouble) :
    x.toNearest.toExtended? = some x := by
  obtain ⟨z, hlow, hhigh, rfl⟩ := isDouble_iff.1 h
  obtain rfl | hlow := hlow.eq_or_lt
  · rw [atRank_of_le le_rfl]
    exact toExtended?_negInf
  obtain rfl | hhigh := hhigh.eq_or_lt
  · rw [atRank_of_ge le_rfl]
    exact toExtended?_posInf
  · rw [atRank_of_lt hlow hhigh, toExtended?_eq_some_iff]
    have hrank : (toNearest (finite (mark z))).rank = z := rank_nearest_mark hlow hhigh
    rw [hrank]
    exact ⟨⟨hlow.le, hhigh.le⟩, atRank_of_lt hlow hhigh⟩

theorem IsDouble.toBelow_eq {x : Extended} (h : x.IsDouble) : x.toBelow.toExtended? = some x := by
  obtain ⟨v, hv, hgreatest⟩ := isGreatest_toBelow x
  rw [hv, Extended.le_antisymm hgreatest.1.2 (hgreatest.2 ⟨h, Extended.le_refl x⟩)]

theorem IsDouble.toAbove_eq {x : Extended} (h : x.IsDouble) : x.toAbove.toExtended? = some x := by
  obtain ⟨v, hv, hleast⟩ := isLeast_toAbove x
  rw [hv, Extended.le_antisymm (hleast.2 ⟨h, Extended.le_refl x⟩) hleast.1.2]

/-- Rounding in a direction is valid and tight. Rounding down gives the largest double that is not
above the value, rounding up the smallest one that is not below it. Both keep the order, they agree
exactly on the values of doubles, and there they and the nearest double are exact. -/
theorem directed_rounding (x : Extended) :
    (∃ v, x.toBelow.toExtended? = some v ∧ IsGreatest {w | w.IsDouble ∧ w ≤ x} v) ∧
    (∃ v, x.toAbove.toExtended? = some v ∧ IsLeast {w | w.IsDouble ∧ x ≤ w} v) ∧
    (∀ y, x ≤ y →
      (∃ v w, x.toBelow.toExtended? = some v ∧ y.toBelow.toExtended? = some w ∧ v ≤ w) ∧
      ∃ v w, x.toAbove.toExtended? = some v ∧ y.toAbove.toExtended? = some w ∧ v ≤ w) ∧
    (x.toBelow.toExtended? = x.toAbove.toExtended? ↔ x.IsDouble) ∧
    ∀ d : Binary64, d.isNaN = false → ∃ v, d.toExtended? = some v ∧
      v.toBelow.toExtended? = some v ∧ v.toAbove.toExtended? = some v ∧
      v.toNearest.toExtended? = some v := by
  obtain ⟨low, hlow, hgreatest⟩ := isGreatest_toBelow x
  obtain ⟨high, hhigh, hleast⟩ := isLeast_toAbove x
  refine ⟨⟨low, hlow, hgreatest⟩, ⟨high, hhigh, hleast⟩, fun y hxy => ?_,
    ⟨fun heq => ?_, fun h => ?_⟩, fun d hd => ?_⟩
  · obtain ⟨low', hlow', hgreatest'⟩ := isGreatest_toBelow y
    obtain ⟨high', hhigh', hleast'⟩ := isLeast_toAbove y
    refine ⟨⟨low, low', hlow, hlow', ?_⟩, high, high', hhigh, hhigh', ?_⟩
    · exact hgreatest'.2 ⟨hgreatest.1.1, Extended.le_trans hgreatest.1.2 hxy⟩
    · exact hleast.2 ⟨hleast'.1.1, Extended.le_trans hxy hleast'.1.2⟩
  · rw [hlow, hhigh, Option.some.injEq] at heq
    have hx : x = low := Extended.le_antisymm (heq ▸ hleast.1.2) hgreatest.1.2
    rw [hx]
    exact hgreatest.1.1
  · rw [h.toBelow_eq, h.toAbove_eq]
  · have hv : d.toExtended? = some (atRank d.rank) := by
      rw [toExtended?_eq, hd, if_neg Bool.false_ne_true]
    have hdouble : IsDouble (atRank d.rank) := ⟨d, hv⟩
    exact ⟨_, hv, hdouble.toBelow_eq, hdouble.toAbove_eq, hdouble.toNearest_eq⟩

/-- One third lies between two doubles. The largest double is read back from its value. -/
theorem directed_rounding_third :
    finite (1 / 3) ≤ finite (1 / 2) ∧ Binary64.largest.isNaN = false ∧
    (∃ v w, (finite (1 / 3)).toBelow.toExtended? = some v ∧
      (finite (1 / 2)).toBelow.toExtended? = some w ∧ v ≤ w) ∧
    (finite (1 / 3)).toBelow.toExtended? ≠ (finite (1 / 3)).toAbove.toExtended? ∧
    ∃ v, Binary64.largest.toExtended? = some v ∧ v.toNearest.toExtended? = some v := by
  have hle : finite (1 / 3) ≤ finite (1 / 2) := by decide +kernel
  have hnumber : Binary64.largest.isNaN = false := by decide +kernel
  obtain ⟨-, -, hmono, -, hexact⟩ := directed_rounding (finite (1 / 3))
  obtain ⟨v, hv, -, -, hnearest⟩ := hexact Binary64.largest hnumber
  exact ⟨hle, hnumber, (hmono _ hle).1, by decide +kernel, v, hv, hnearest⟩

end Extended

end CertifiedLp
