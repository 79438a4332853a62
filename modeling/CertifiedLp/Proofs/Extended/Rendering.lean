import Mathlib
import CertifiedLp.Proofs.Extended.Numeral

/-!
# Rendered values

The text of a value is a numeral that stands for the value: an integer is a decimal without a point,
and a fraction in lowest terms has its denominator behind a slash. No blank occurs in it, so that
blanks around the text do not matter. Reading undoes rendering, and the rendered text is a canonical
form of all the texts of one value.
-/

namespace CertifiedLp

namespace Extended

/-! ## Integers -/

/-- Without separators, positional notation is what the library reads characters by. -/
theorem natValue_eq_ofDigitChars {cs : List Char} (h : ∀ c ∈ cs, c.isDigit = true) :
    natValue cs = Nat.ofDigitChars 10 cs 0 := by
  induction cs with
  | nil => rfl
  | cons c cs ih =>
    obtain ⟨hc, hcs⟩ := List.forall_mem_cons.1 h
    have hlength : (digits cs).length = cs.length := by
      rw [digits, List.length_map, List.filter_eq_self.2 hcs]
    rw [natValue_cons_digit hc, ih hcs, hlength, Nat.ofDigitChars_cons, mul_zero, zero_add]
    conv_rhs => rw [Nat.ofDigitChars_eq_ofDigitChars_zero]
    exact add_comm _ _

theorem isNatural_toDigits (n : Nat) : IsNatural (Nat.toDigits 10 n) := by
  apply (isNatural_iff_of_ungrouped Nat.underscore_not_in_toDigits).2
  constructor
  · exact Nat.toDigits_ne_nil
  · intro c hc
    exact Nat.isDigit_of_mem_toDigits (by decide) (by decide) hc

theorem natValue_toDigits (n : Nat) : natValue (Nat.toDigits 10 n) = n := by
  rw [natValue_eq_ofDigitChars, Nat.ofDigitChars_ten_toDigits]
  intro c hc
  exact Nat.isDigit_of_mem_toDigits (by decide) (by decide) hc

/-- An integer is written as a sign, if it is negative, and the digits of its magnitude. -/
theorem toList_toString (z : Int) : (toString z).toList =
    if z < 0 then '-' :: Nat.toDigits 10 z.natAbs else Nat.toDigits 10 z.natAbs := by
  cases z with
  | ofNat n => exact Nat.toList_repr
  | negSucc n =>
    rw [if_pos (Int.negSucc_lt_zero n)]
    change ("-" ++ (n + 1).repr).toList = _
    rw [String.toList_append, Nat.toList_repr]
    rfl

theorem isInteger_toString (z : Int) : IsInteger (toString z).toList := by
  rw [toList_toString]
  split
  · exact .negative (isNatural_toDigits _)
  · exact .unsigned (isNatural_toDigits _)

theorem intValue_toString (z : Int) : intValue (toString z).toList = z := by
  rw [toList_toString]
  split
  · next hneg =>
    rw [intValue_negative, natValue_toDigits]
    omega
  · next hpos =>
    rw [intValue_unsigned, natValue_toDigits]
    · omega
    · intro hhead
      have hdigit := Nat.isDigit_of_mem_toDigits (by decide) (by decide) (List.mem_of_head? hhead)
      exact absurd hdigit (by decide)

theorem eq_or_isDigit_of_mem_toString {z : Int} {c : Char} (h : c ∈ (toString z).toList) :
    c = '-' ∨ c.isDigit = true := by
  have hdigits : c ∈ Nat.toDigits 10 z.natAbs → c.isDigit = true :=
    Nat.isDigit_of_mem_toDigits (by decide) (by decide)
  rw [toList_toString] at h
  split at h
  · exact (List.mem_cons.1 h).imp_right hdigits
  · exact .inr (hdigits h)

theorem notMem_toString {c : Char} (hsign : c ≠ '-') (hdigit : c.isDigit = false) (z : Int) :
    c ∉ (toString z).toList := by
  intro h
  obtain rfl | h := eq_or_isDigit_of_mem_toString h
  · exact hsign rfl
  · rw [hdigit] at h
    cases h

/-! ## Numerals -/

theorem isMantissa_toString (z : Int) :
    IsMantissa (toString z).toList (toString z).toList [] where
  parts := .whole (notMem_toString (by decide) (by decide) z)
  digits := by simp
  integer := by simpa using isInteger_toString z

/-- An integer is a decimal that has neither a point nor an exponent. -/
theorem isDecimal_toString (z : Int) : IsDecimal (toString z).toList (toString z).toList [] 0 where
  noSlash := notMem_toString (by decide) (by decide) z
  mantissa := by
    refine ⟨_, .plain ?_ ?_, isMantissa_toString z⟩
    · exact notMem_toString (by decide) (by decide) z
    · exact notMem_toString (by decide) (by decide) z

theorem isFraction_toString (n : Int) {d : Nat} (hd : d ≠ 0) :
    IsFraction ((toString n).toList ++ '/' :: (toString (d : Int)).toList)
      (toString n).toList (toString (d : Int)).toList where
  slash := rfl
  first := notMem_toString (by decide) (by decide) n
  above := isInteger_toString n
  below := isInteger_toString d
  nonzero := by
    rw [intValue_toString]
    exact_mod_cast hd

/-! ## Blanks -/

theorem isBlank_eq_false_of_mem_toString {z : Int} {c : Char} (h : c ∈ (toString z).toList) :
    Text.isBlank c = false := by
  obtain rfl | hdigit := eq_or_isDigit_of_mem_toString h
  · decide
  · exact isBlank_eq_false_of_isDigit hdigit

theorem toList_render_finite (q : Rat) : (render (finite q)).toList =
    if q.den = 1 then (toString q.num).toList
    else (toString q.num).toList ++ '/' :: (toString (q.den : Int)).toList := by
  rw [render, renderRat]
  split
  · rfl
  · rw [String.toList_append, String.toList_append, List.append_assoc]
    rfl

theorem isBlank_eq_false_of_mem_render {x : Extended} {c : Char} (h : c ∈ (render x).toList) :
    Text.isBlank c = false := by
  cases x with
  | negInf =>
    have hname : (render negInf).toList.all (!Text.isBlank ·) = true := by decide
    simpa using List.all_eq_true.1 hname c h
  | posInf =>
    have hname : (render posInf).toList.all (!Text.isBlank ·) = true := by decide
    simpa using List.all_eq_true.1 hname c h
  | finite q =>
    rw [toList_render_finite] at h
    split at h
    · exact isBlank_eq_false_of_mem_toString h
    · obtain h | rfl | h := by simpa only [List.mem_append, List.mem_cons] using h
      · exact isBlank_eq_false_of_mem_toString h
      · decide
      · exact isBlank_eq_false_of_mem_toString h

/-- The blanks around a rendered value are all that is cut off. -/
theorem trim_render {before after : String} (x : Extended)
    (hbefore : ∀ c ∈ before.toList, Text.isBlank c = true)
    (hafter : ∀ c ∈ after.toList, Text.isBlank c = true) :
    Text.trim (before ++ render x ++ after).toList = (render x).toList := by
  rw [String.toList_append, String.toList_append, Text.trim_surround hbefore hafter]
  apply Text.trim_of_not_blank
  · intro c hc
    exact isBlank_eq_false_of_mem_render (List.mem_of_head? hc)
  · intro c hc
    exact isBlank_eq_false_of_mem_render (List.mem_of_getLast? hc)

/-! ## Reading what was rendered -/

/-- A text is read as a value if the value is what is rendered between its blanks. -/
theorem read_of_trim_eq {text : String} {x : Extended}
    (h : Text.trim text.toList = (render x).toList) : read text = .ok x := by
  cases x with
  | negInf => rw [read, h]; decide
  | posInf => rw [read, h]; decide
  | finite q =>
    rw [toList_render_finite] at h
    split at h
    · next hden =>
      have hdecimal := isDecimal_toString q.num
      rw [← h] at hdecimal
      rw [read_decimal hdecimal (by simp), h, List.append_nil, intValue_toString, scale]
      simp [Rat.coe_int_num_of_den_eq_one hden]
    · have hfraction := isFraction_toString q.num q.den_nz
      rw [← h] at hfraction
      rw [read_fraction hfraction, intValue_toString, intValue_toString, Int.cast_natCast,
        Rat.num_div_den]

theorem read_render_self (x : Extended) : read (render x) = .ok x := by
  have htrim : Text.trim ("" ++ render x ++ "").toList = (render x).toList :=
    trim_render x (by simp) (by simp)
  apply read_of_trim_eq
  simpa using htrim

/-- Reading undoes rendering, with blanks around the text or without. What is rendered of a text
that can be read stands for the same value, so that two texts have the same value exactly when they
are rendered alike. -/
theorem read_render :
    (∀ (x : Extended) (before after : String),
      (∀ c ∈ before.toList, Text.isBlank c = true) → (∀ c ∈ after.toList, Text.isBlank c = true) →
        read (before ++ render x ++ after) = .ok x) ∧
    (∀ (text : String) (x : Extended), read text = .ok x → read (render x) = read text) ∧
    ∀ (text text' : String) (x x' : Extended), read text = .ok x → read text' = .ok x' →
      (read text = read text' ↔ render x = render x') := by
  refine ⟨?_, ?_, ?_⟩
  · intro x before after hbefore hafter
    exact read_of_trim_eq (trim_render x hbefore hafter)
  · intro text x h
    rw [h, read_render_self]
  · intro text text' x x' h h'
    rw [h, h']
    constructor
    · intro heq
      rw [Except.ok.inj heq]
    · intro heq
      rw [← read_render_self x, heq, read_render_self x']

/-- Three texts of the same value, and the one text that stands for it. -/
theorem read_render_seven_halves :
    read " -3.50" = .ok (finite (mkRat (-7) 2)) ∧ read "+7_0/-20" = .ok (finite (mkRat (-7) 2)) ∧
      read ("\t" ++ render (finite (mkRat (-7) 2)) ++ " \n") = .ok (finite (mkRat (-7) 2)) ∧
      read (render (finite (mkRat (-7) 2))) = read " -3.50" ∧
      (read " -3.50" = read "+7_0/-20" ↔
        render (finite (mkRat (-7) 2)) = render (finite (mkRat (-7) 2))) := by
  have hdecimal : read " -3.50" = .ok (finite (mkRat (-7) 2)) := by decide +kernel
  have hfraction : read "+7_0/-20" = .ok (finite (mkRat (-7) 2)) := by decide +kernel
  refine ⟨hdecimal, hfraction, ?_, ?_, ?_⟩
  · exact read_render.1 _ "\t" " \n" (List.all_eq_true.1 (by decide)) (List.all_eq_true.1 (by decide))
  · exact read_render.2.1 _ _ hdecimal
  · exact read_render.2.2 _ _ _ _ hdecimal hfraction

end Extended

end CertifiedLp
