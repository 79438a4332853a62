import Mathlib
import CertifiedLp.Binary64

/-!
# The scale of the doubles

The doubles that are numbers stand on a scale. The *rank* of a double is its place there: its bits
below the sign, counted upwards for positive and downwards for negative numbers. Both zeros are at
rank zero, and the infinities are at the ends. A step to the next double is a step by one rank.

The values along the scale ascend strictly. The finite ones continue behind the ends by the same
rule, as if there were no largest exponent; `mark` gives these rational numbers. `atRank` gives the
values of the doubles, with an infinity at and behind each end.
-/

namespace CertifiedLp

namespace Binary64

/-! ## Magnitudes -/

theorem fractionModulus_pos : 0 < fractionModulus := by decide

theorem scaleByTwo_eq (m : Nat) (e : Int) : scaleByTwo m e = m * (2 : Rat) ^ e := by
  rw [scaleByTwo]
  split
  · next h =>
    obtain ⟨k, rfl⟩ := Int.eq_ofNat_of_zero_le h
    simp
  · next h =>
    obtain ⟨k, rfl⟩ : ∃ k : Nat, e = -k := ⟨(-e).toNat, by omega⟩
    simp [Rat.mkRat_eq_div, div_eq_mul_inv]

/-- A significand of up to 53 bits adds to the bits of its exponent. One that is too large by one
carries into them. -/
theorem magnitude_eq {k m : Nat} (hm : m ≤ 2 * fractionModulus)
    (hk : k = 0 ∨ fractionModulus ≤ m) :
    magnitude (k * fractionModulus + m) = m * (2 : Rat) ^ ((k : Int) - 1074) := by
  have hpos := fractionModulus_pos
  rw [magnitude, Nat.mul_comm k, Nat.mul_add_div hpos, Nat.mul_add_mod]
  obtain hsmall | hnormal | rfl : m < fractionModulus ∨
      (fractionModulus ≤ m ∧ m < 2 * fractionModulus) ∨ m = 2 * fractionModulus := by omega
  · obtain rfl : k = 0 := by omega
    rw [Nat.div_eq_of_lt hsmall, Nat.mod_eq_of_lt hsmall, if_pos rfl, scaleByTwo_eq]
    rfl
  · have hdiv : m / fractionModulus = 1 := Nat.div_eq_of_lt_le (by omega) (by omega)
    have hmod : fractionModulus + m % fractionModulus = m := by
      rw [Nat.mod_eq_sub_mod hnormal.1, Nat.mod_eq_of_lt (by omega)]
      omega
    rw [hdiv, if_neg (by omega), hmod, scaleByTwo_eq]
    congr 2
    push_cast
    ring
  · rw [Nat.mul_div_cancel _ hpos, Nat.mul_mod_left, if_neg (by omega), scaleByTwo_eq]
    have hexponent : ((k + 2 : Nat) : Int) - 1075 = (k : Int) - 1074 + 1 := by
      push_cast
      ring
    rw [hexponent, zpow_add_one₀ (by norm_num)]
    push_cast
    ring

/-- Bits are those of an exponent and a significand. -/
theorem exists_significand (bits : Nat) : ∃ k m, bits = k * fractionModulus + m ∧
    m < 2 * fractionModulus ∧ (k = 0 ∨ fractionModulus ≤ m) := by
  have hpos := fractionModulus_pos
  obtain hsmall | hnormal := Nat.lt_or_ge bits fractionModulus
  · exact ⟨0, bits, by omega, by omega, .inl rfl⟩
  · have hmod := Nat.mod_lt bits hpos
    have hdiv := Nat.div_add_mod bits fractionModulus
    obtain ⟨k, hk⟩ := Nat.exists_eq_add_of_le' (Nat.div_pos hnormal hpos)
    refine ⟨k, fractionModulus + bits % fractionModulus, ?_, by omega, .inr (by omega)⟩
    rw [hk, Nat.mul_add, Nat.mul_comm] at hdiv
    omega

theorem magnitude_lt_succ (bits : Nat) : magnitude bits < magnitude (bits + 1) := by
  obtain ⟨k, m, rfl, hm, hk⟩ := exists_significand bits
  have hstep : (0 : Rat) < 2 ^ ((k : Int) - 1074) := by positivity
  rw [add_assoc, magnitude_eq hm.le hk, magnitude_eq (by omega) (by omega)]
  push_cast
  linarith

@[simp] theorem magnitude_zero : magnitude 0 = 0 := by
  have h := magnitude_eq (k := 0) (m := 0) (by omega) (.inl rfl)
  simpa using h

/-! ## Marks -/

/-- The rational number at a rank of the scale, which has no end here. -/
def mark (z : Int) : Rat := z.sign * magnitude z.natAbs

@[simp] theorem mark_natCast (n : Nat) : mark n = magnitude n := by
  cases n with
  | zero => simp [mark]
  | succ n =>
    rw [mark, Int.natAbs_natCast, Int.sign_eq_one_of_pos (by omega)]
    simp

@[simp] theorem mark_neg (z : Int) : mark (-z) = -mark z := by
  simp [mark]

theorem strictMono_mark : StrictMono mark := by
  apply strictMono_int_of_lt_succ
  intro z
  obtain ⟨n, rfl⟩ | ⟨n, rfl⟩ : (∃ n : Nat, z = n) ∨ ∃ n : Nat, z = -(n + 1 : Nat) := by
    obtain h | h := lt_or_ge z 0
    · exact .inr ⟨(-z - 1).toNat, by omega⟩
    · exact .inl ⟨z.toNat, by omega⟩
  · have h := magnitude_lt_succ n
    rw [← mark_natCast, ← mark_natCast] at h
    exact_mod_cast h
  · have hnext : -((n + 1 : Nat) : Int) + 1 = -(n : Int) := by
      push_cast
      ring
    rw [hnext, mark_neg, mark_neg, mark_natCast, mark_natCast]
    exact neg_lt_neg (magnitude_lt_succ n)

/-! ## Ranks -/

/-- The place of a double on the scale. -/
def rank (x : Binary64) : Int := if x.isSigned then -(x.magnitudeBits : Int) else x.magnitudeBits

/-- The value at a rank. -/
def atRank (z : Int) : Extended :=
  if z ≤ -infinityBits then .negInf else if infinityBits ≤ z then .posInf else .finite (mark z)

theorem atRank_of_le {z : Int} (h : z ≤ -infinityBits) : atRank z = .negInf := if_pos h

theorem infinityBits_pos : 0 < infinityBits := by decide

theorem infinityBits_lt_signBit : infinityBits < signBit := by decide

theorem atRank_of_ge {z : Int} (h : infinityBits ≤ z) : atRank z = .posInf := by
  have hpos := infinityBits_pos
  rw [atRank, if_neg (by omega), if_pos h]

theorem atRank_of_lt {z : Int} (hlow : -infinityBits < z) (hhigh : z < infinityBits) :
    atRank z = .finite (mark z) := by
  rw [atRank, if_neg (by omega), if_neg (by omega)]

theorem atRank_mono {y z : Int} (h : y ≤ z) : atRank y ≤ atRank z := by
  obtain hy | hy := lt_or_ge (-(infinityBits : Int)) y
  · obtain hz | hz := lt_or_ge z (infinityBits : Int)
    · rw [atRank_of_lt hy (by omega), atRank_of_lt (by omega) hz, Extended.finite_le_finite]
      exact strictMono_mark.monotone h
    · rw [atRank_of_ge hz]
      exact Extended.le_posInf _
  · rw [atRank_of_le hy]
    exact Extended.negInf_le _

theorem atRank_neg (z : Int) : atRank (-z) = -atRank z := by
  obtain hlow | hlow := lt_or_ge (-(infinityBits : Int)) z
  · obtain hhigh | hhigh := lt_or_ge z (infinityBits : Int)
    · rw [atRank_of_lt hlow hhigh, atRank_of_lt (by omega) (by omega), mark_neg,
        Extended.neg_finite]
    · rw [atRank_of_ge hhigh, atRank_of_le (by omega), Extended.neg_posInf]
  · rw [atRank_of_le hlow, atRank_of_ge (by omega), Extended.neg_negInf]

/-- A double is a number if its rank is on the scale. -/
theorem isNaN_eq_false_iff {x : Binary64} :
    x.isNaN = false ↔ -infinityBits ≤ x.rank ∧ x.rank ≤ infinityBits := by
  rw [isNaN, decide_eq_false_iff_not, Nat.not_lt, rank]
  split <;> omega

theorem finite?_eq (x : Binary64) : x.finite? =
    if -infinityBits < x.rank ∧ x.rank < infinityBits then some (mark x.rank) else none := by
  have hrank : -infinityBits < x.rank ∧ x.rank < infinityBits ↔ x.magnitudeBits < infinityBits := by
    rw [rank]
    split <;> omega
  simp only [hrank, finite?]
  split
  · rw [rank]
    split
    · rw [mark_neg, mark_natCast]
    · rw [mark_natCast]
  · rfl

theorem toExtended?_eq (x : Binary64) :
    x.toExtended? = if x.isNaN then none else some (atRank x.rank) := by
  have hpos := infinityBits_pos
  rw [toExtended?, finite?_eq]
  split
  · next q hq =>
    obtain ⟨hrank, rfl⟩ := by simpa only [Option.ite_none_right_eq_some, Option.some.injEq] using hq
    have hnumber : x.isNaN = false := isNaN_eq_false_iff.2 (by omega)
    rw [hnumber, atRank_of_lt hrank.1 hrank.2]
    rfl
  · next hq =>
    replace hq : ¬ (-infinityBits < x.rank ∧ x.rank < infinityBits) := by simpa using hq
    split
    · rfl
    · next hnumber =>
      have hends := isNaN_eq_false_iff.1 (Bool.not_eq_true _ ▸ hnumber)
      split
      · next hsign =>
        rw [rank, if_pos hsign] at hq hends
        rw [rank, if_pos hsign, atRank_of_le (by omega)]
      · next hsign =>
        rw [rank, if_neg hsign] at hq hends
        rw [rank, if_neg hsign, atRank_of_ge (by omega)]

/-! ## Doubles by their bits -/

section

variable {signed : Bool} {bits : Nat}

theorem toNat_bits_ofMagnitudeBits (signed : Bool) (h : bits < signBit) :
    (ofMagnitudeBits signed bits).bits.toNat = if signed then signBit + bits else bits := by
  have hsign : signBit = 9223372036854775808 := by decide
  rw [ofMagnitudeBits, UInt64.toNat_ofNat']
  apply Nat.mod_eq_of_lt
  split <;> omega

theorem magnitudeBits_ofMagnitudeBits (signed : Bool) (h : bits < signBit) :
    (ofMagnitudeBits signed bits).magnitudeBits = bits := by
  rw [magnitudeBits, toNat_bits_ofMagnitudeBits signed h]
  split
  · rw [Nat.add_mod_left, Nat.mod_eq_of_lt h]
  · exact Nat.mod_eq_of_lt h

theorem isSigned_ofMagnitudeBits (signed : Bool) (h : bits < signBit) :
    (ofMagnitudeBits signed bits).isSigned = signed := by
  rw [isSigned, toNat_bits_ofMagnitudeBits signed h]
  cases signed <;> simp [h]

theorem rank_ofMagnitudeBits (signed : Bool) (h : bits < signBit) :
    (ofMagnitudeBits signed bits).rank = if signed then -(bits : Int) else bits := by
  rw [rank, isSigned_ofMagnitudeBits signed h, magnitudeBits_ofMagnitudeBits signed h]

end

/-- Every rank of the scale is taken by a double. -/
theorem exists_rank {z : Int} (hlow : -infinityBits ≤ z) (hhigh : z ≤ infinityBits) :
    ∃ x : Binary64, x.rank = z := by
  have hbound := infinityBits_lt_signBit
  refine ⟨ofMagnitudeBits (decide (z < 0)) z.natAbs, ?_⟩
  rw [rank_ofMagnitudeBits _ (by omega)]
  simp only [decide_eq_true_eq]
  split <;> omega

/-! ## Neighbours -/

theorem magnitudeBits_lt (x : Binary64) : x.magnitudeBits < signBit :=
  Nat.mod_lt _ (by decide)

@[simp] theorem rank_neg (x : Binary64) : x.neg.rank = -x.rank := by
  rw [neg, rank_ofMagnitudeBits _ x.magnitudeBits_lt, rank]
  cases x.isSigned <;> simp

theorem rank_posInf : posInf.rank = infinityBits := by
  rw [posInf, rank_ofMagnitudeBits _ infinityBits_lt_signBit]
  rfl

theorem rank_negInf : negInf.rank = -infinityBits := by
  rw [negInf, rank_ofMagnitudeBits _ infinityBits_lt_signBit]
  rfl

/-- Below positive infinity, the next double is one rank higher. -/
theorem rank_nextUp {x : Binary64} (hlow : -infinityBits ≤ x.rank) (hhigh : x.rank < infinityBits) :
    x.nextUp.rank = x.rank + 1 := by
  have hbound := infinityBits_lt_signBit
  have hnumber : x.isNaN = false := isNaN_eq_false_iff.2 ⟨hlow, hhigh.le⟩
  have hne : x ≠ posInf := by
    rintro rfl
    rw [rank_posInf] at hhigh
    exact lt_irrefl _ hhigh
  have hrank : x.rank = if x.isSigned then -(x.magnitudeBits : Int) else x.magnitudeBits := rfl
  rw [nextUp, if_neg (by simp [hnumber, hne])]
  split
  · next hzero =>
    have hone : 1 < signBit := by decide
    rw [rank_ofMagnitudeBits _ hone, hrank, hzero]
    simp
  · split
    · next hzero hsign =>
      rw [if_pos hsign] at hrank
      rw [rank_ofMagnitudeBits _ (by omega), if_pos rfl]
      omega
    · next hzero hsign =>
      rw [if_neg hsign] at hrank
      rw [rank_ofMagnitudeBits _ (by omega), if_neg (by simp)]
      omega

/-- Above negative infinity, the next double downwards is one rank lower. -/
theorem rank_nextDown {x : Binary64} (hlow : -infinityBits < x.rank)
    (hhigh : x.rank ≤ infinityBits) : x.nextDown.rank = x.rank - 1 := by
  rw [nextDown, rank_neg, rank_nextUp, rank_neg]
  · ring
  · rw [rank_neg]
    omega
  · rw [rank_neg]
    omega

end Binary64

end CertifiedLp
