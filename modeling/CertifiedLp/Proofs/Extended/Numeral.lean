import Mathlib
import CertifiedLp.Extended.Text

/-!
# Numerals

The grammar of the texts that are a value, and the value of each of them in positional notation.
Both are stated on the whole text, by where its first separators are, and do not follow the reader.
Each layer of the reader accepts what its part of the grammar admits, nothing else, and answers with
the value.

The grammar has no bound for the digits behind the point. The reader counts them in 32-bit words,
and refuses a numeral that has more than 2³¹ - 1 of them.
-/

namespace CertifiedLp

namespace Extended

/-! ## Positional notation -/

/-- The digits of a text, the leading one first. -/
def digits (cs : List Char) : List Nat := (cs.filter Char.isDigit).map digitValue

/-- The number that the digits of a text stand for. Other characters have no value. -/
def natValue (cs : List Char) : Nat := Nat.ofDigits 10 (digits cs).reverse

/-- The integer that a text with an optional sign stands for. -/
def intValue (cs : List Char) : Int :=
  if cs.head? = some '-' then -(natValue cs : Int) else natValue cs

@[simp] theorem natValue_nil : natValue [] = 0 := rfl

theorem natValue_cons_digit {c : Char} {cs : List Char} (h : c.isDigit = true) :
    natValue (c :: cs) = natValue cs + 10 ^ (digits cs).length * digitValue c := by
  simp [natValue, digits, h, Nat.ofDigits_append, Nat.ofDigits_singleton]

theorem natValue_cons_other {c : Char} {cs : List Char} (h : c.isDigit = false) :
    natValue (c :: cs) = natValue cs := by
  simp [natValue, digits, h]

@[simp] theorem intValue_negative (cs : List Char) : intValue ('-' :: cs) = -(natValue cs : Int) := by
  simp [intValue, natValue_cons_other (c := '-') rfl]

@[simp] theorem intValue_positive (cs : List Char) : intValue ('+' :: cs) = natValue cs := by
  simp [intValue, natValue_cons_other (c := '+') rfl]

theorem intValue_unsigned {cs : List Char} (h : cs.head? ≠ some '-') :
    intValue cs = natValue cs := if_neg h

/-! ## Integers -/

/-- Digits, grouped by underscores: at least one character, the first of them no underscore. -/
structure IsNatural (cs : List Char) : Prop where
  nonempty : cs ≠ []
  head : cs.head? ≠ some '_'
  grouped : ∀ c ∈ cs, c.isDigit = true ∨ c = '_'

/-- A natural number with at most one sign in front. -/
inductive IsInteger : List Char → Prop where
  | unsigned {cs : List Char} : IsNatural cs → IsInteger cs
  | positive {cs : List Char} : IsNatural cs → IsInteger ('+' :: cs)
  | negative {cs : List Char} : IsNatural cs → IsInteger ('-' :: cs)

/-- An integer within the range of a 32-bit word, whose digits are not grouped. -/
structure IsExponent (cs : List Char) : Prop where
  integer : IsInteger cs
  ungrouped : '_' ∉ cs
  lower : -2147483648 ≤ intValue cs
  upper : intValue cs < 2147483648

theorem isNatural_cons {c : Char} {cs : List Char} :
    IsNatural (c :: cs) ↔ c.isDigit = true ∧ ∀ x ∈ cs, x.isDigit = true ∨ x = '_' := by
  constructor
  · intro h
    have hhead : c ≠ '_' := by simpa using h.head
    obtain ⟨hc, hcs⟩ := List.forall_mem_cons.1 h.grouped
    exact ⟨hc.resolve_right hhead, hcs⟩
  · rintro ⟨hc, hcs⟩
    refine ⟨by simp, ?_, List.forall_mem_cons.2 ⟨Or.inl hc, hcs⟩⟩
    rintro ⟨⟩
    exact absurd hc (by decide)

theorem isInteger_negative {cs : List Char} : IsInteger ('-' :: cs) ↔ IsNatural cs := by
  refine ⟨?_, .negative⟩
  rintro (h | _ | h)
  · exact absurd (isNatural_cons.1 h).1 (by decide)
  · exact h

theorem isInteger_positive {cs : List Char} : IsInteger ('+' :: cs) ↔ IsNatural cs := by
  refine ⟨?_, .positive⟩
  rintro (h | h | _)
  · exact absurd (isNatural_cons.1 h).1 (by decide)
  · exact h

theorem isInteger_unsigned {cs : List Char} (hminus : ∀ rest, cs ≠ '-' :: rest)
    (hplus : ∀ rest, cs ≠ '+' :: rest) : IsInteger cs ↔ IsNatural cs := by
  refine ⟨?_, .unsigned⟩
  rintro (h | h | h)
  · exact h
  · exact absurd rfl (hplus _)
  · exact absurd rfl (hminus _)

/-- A number that was begun goes on as long as there are digits and underscores. -/
theorem readGroupedDigits?_eq_some {cs : List Char} {v n : Nat} :
    readGroupedDigits? v cs = some n ↔
      (∀ c ∈ cs, c.isDigit = true ∨ c = '_') ∧ natValue cs + 10 ^ (digits cs).length * v = n := by
  induction cs generalizing v with
  | nil => simp [readGroupedDigits?, digits]
  | cons c cs ih =>
    rw [readGroupedDigits?]
    by_cases hgroup : c = '_'
    · subst hgroup
      rw [if_pos rfl, ih, natValue_cons_other rfl]
      simp [digits]
    · rw [if_neg hgroup]
      by_cases hdigit : c.isDigit = true
      · rw [if_pos hdigit, ih, natValue_cons_digit hdigit]
        have hlength : (digits (c :: cs)).length = (digits cs).length + 1 := by
          simp [digits, hdigit]
        have hvalue : natValue cs + 10 ^ (digits cs).length * (10 * v + digitValue c) =
            natValue cs + 10 ^ (digits cs).length * digitValue c +
              10 ^ (digits (c :: cs)).length * v := by
          rw [hlength]
          ring
        simp [hdigit, hvalue]
      · simp [hgroup, hdigit]

theorem readNat?_eq_some {cs : List Char} {n : Nat} :
    readNat? cs = some n ↔ IsNatural cs ∧ natValue cs = n := by
  cases cs with
  | nil => exact ⟨by simp [readNat?], fun h => absurd rfl h.1.nonempty⟩
  | cons c cs =>
    by_cases hgroup : c = '_'
    · subst hgroup
      exact ⟨by simp [readNat?], fun h => absurd rfl h.1.head⟩
    · have hread : readNat? (c :: cs) = readGroupedDigits? 0 (c :: cs) := by
        simp [readNat?, hgroup]
      rw [hread, readGroupedDigits?_eq_some, isNatural_cons]
      simp [hgroup]

theorem readInt?_eq_some {cs : List Char} {z : Int} :
    readInt? cs = some z ↔ IsInteger cs ∧ intValue cs = z := by
  unfold readInt?
  split
  · simp [Option.bind_eq_some_iff, readNat?_eq_some, isInteger_negative]
  · simp [readNat?_eq_some, isInteger_positive]
  · next hminus hplus =>
    have hhead : cs.head? ≠ some '-' := by
      cases cs with
      | nil => simp
      | cons c cs =>
        rintro ⟨⟩
        exact hminus cs rfl
    rw [isInteger_unsigned (fun rest h => hminus rest h) (fun rest h => hplus rest h),
      intValue_unsigned hhead]
    simp [readNat?_eq_some]

theorem isNatural_iff_of_ungrouped {cs : List Char} (h : '_' ∉ cs) :
    IsNatural cs ↔ cs ≠ [] ∧ ∀ c ∈ cs, c.isDigit = true := by
  constructor
  · intro hcs
    refine ⟨hcs.nonempty, fun c hc => (hcs.grouped c hc).resolve_right ?_⟩
    rintro rfl
    exact h hc
  · rintro ⟨hne, hdigits⟩
    exact ⟨hne, fun hhead => h (List.mem_of_head? hhead), fun c hc => Or.inl (hdigits c hc)⟩

/-- Where no underscore is allowed, the reader of plain digits is the reader of grouped ones. -/
theorem readDigits?_eq (cs : List Char) :
    readDigits? cs = if '_' ∈ cs then none else readNat? cs := by
  by_cases hgroup : '_' ∈ cs
  · rw [if_pos hgroup, readDigits?, if_neg]
    rintro ⟨-, hdigits⟩
    exact absurd (List.all_eq_true.1 hdigits _ hgroup) (by decide)
  · rw [if_neg hgroup]
    ext n
    rw [readNat?_eq_some, isNatural_iff_of_ungrouped hgroup, readDigits?]
    by_cases hplain : cs ≠ [] ∧ cs.all Char.isDigit = true
    · rw [if_pos hplain, readGroupedDigits?_eq_some]
      have hdigits : ∀ c ∈ cs, c.isDigit = true := List.all_eq_true.1 hplain.2
      have hgrouped : ∀ c ∈ cs, c.isDigit = true ∨ c = '_' := fun c hc => Or.inl (hdigits c hc)
      rw [and_iff_right hgrouped, and_iff_right ⟨hplain.1, hdigits⟩, mul_zero, add_zero]
    · rw [if_neg hplain]
      simp only [List.all_eq_true] at hplain
      simp [hplain]

theorem readPlainInt?_eq (cs : List Char) :
    readPlainInt? cs = if '_' ∈ cs then none else readInt? cs := by
  unfold readPlainInt? readInt?
  split
  all_goals
    rw [readDigits?_eq]
    split <;> simp_all

theorem readExponent?_eq_some {cs : List Char} {e : Int} :
    readExponent? cs = some e ↔ IsExponent cs ∧ intValue cs = e := by
  rw [readExponent?, readPlainInt?_eq]
  constructor
  · intro h
    obtain ⟨z, hz, hword⟩ := Option.bind_eq_some_iff.1 h
    obtain ⟨hgroup, hread⟩ : '_' ∉ cs ∧ readInt? cs = some z := by simpa using hz
    obtain ⟨hrange, rfl⟩ : isWord z = true ∧ z = e := by simpa using hword
    obtain ⟨hint, rfl⟩ := readInt?_eq_some.1 hread
    obtain ⟨hlower, hupper⟩ : -2147483648 ≤ intValue cs ∧ intValue cs < 2147483648 := by
      simpa [isWord] using hrange
    exact ⟨⟨hint, hgroup, hlower, hupper⟩, rfl⟩
  · rintro ⟨h, rfl⟩
    have hrange : isWord (intValue cs) = true := by simp [isWord, h.lower, h.upper]
    simp [h.ungrouped, readInt?_eq_some.2 ⟨h.integer, rfl⟩, hrange]

/-! ## Separators -/

section

variable {test : Char → Bool} {cs before after : List Char} {c : Char}

theorem cutAt_append (hbefore : ∀ x ∈ before, test x = false) (hc : test c = true) :
    cutAt test (before ++ c :: after) = (before, some after) := by
  induction before with
  | nil => simp [cutAt, hc]
  | cons x before ih =>
    obtain ⟨hx, hbefore⟩ := List.forall_mem_cons.1 hbefore
    simp [cutAt, hx, ih hbefore]

theorem cutAt_of_forall (h : ∀ x ∈ cs, test x = false) : cutAt test cs = (cs, none) := by
  induction cs with
  | nil => rfl
  | cons x cs ih =>
    obtain ⟨hx, hcs⟩ := List.forall_mem_cons.1 h
    simp [cutAt, hx, ih hcs]

/-- A text has no separator, or a first one. -/
theorem forall_or_exists_first (test : Char → Bool) (cs : List Char) :
    (∀ x ∈ cs, test x = false) ∨
      ∃ before c after, (∀ x ∈ before, test x = false) ∧ test c = true ∧
        cs = before ++ c :: after := by
  induction cs with
  | nil => exact Or.inl (by simp)
  | cons x cs ih =>
    by_cases hx : test x = true
    · exact Or.inr ⟨[], x, cs, by simp, hx, rfl⟩
    · have hx : test x = false := by simpa using hx
      obtain hnone | ⟨before, c, after, hbefore, hc, rfl⟩ := ih
      · exact Or.inl (List.forall_mem_cons.2 ⟨hx, hnone⟩)
      · exact Or.inr ⟨x :: before, c, after, List.forall_mem_cons.2 ⟨hx, hbefore⟩, hc, rfl⟩

end

/-! ## Fractions -/

/-- Two integers around the first slash, the second of them not zero. -/
structure IsFraction (cs numerator denominator : List Char) : Prop where
  slash : cs = numerator ++ '/' :: denominator
  first : '/' ∉ numerator
  above : IsInteger numerator
  below : IsInteger denominator
  nonzero : intValue denominator ≠ 0

theorem readFraction?_eq_some {numerator denominator : List Char} {q : Rat} :
    readFraction? numerator denominator = some q ↔
      IsInteger numerator ∧ IsInteger denominator ∧ intValue denominator ≠ 0 ∧
        (intValue numerator : Rat) / intValue denominator = q := by
  rw [readFraction?]
  constructor
  · intro h
    obtain ⟨n, hn, h⟩ := Option.bind_eq_some_iff.1 h
    obtain ⟨d, hd, h⟩ := Option.bind_eq_some_iff.1 h
    obtain ⟨hnumerator, rfl⟩ := readInt?_eq_some.1 hn
    obtain ⟨hdenominator, rfl⟩ := readInt?_eq_some.1 hd
    obtain ⟨hzero, rfl⟩ : intValue denominator ≠ 0 ∧ _ = q := by simpa using h
    exact ⟨hnumerator, hdenominator, hzero, (Rat.divInt_eq_div _ _).symm⟩
  · rintro ⟨hn, hd, hzero, rfl⟩
    simp [readInt?_eq_some.2 ⟨hn, rfl⟩, readInt?_eq_some.2 ⟨hd, rfl⟩, hzero, Rat.divInt_eq_div]

/-! ## Decimals -/

/-- A text is a mantissa, with an exponent behind its first letter `e` of either case. The exponent
is zero where there is no such letter. -/
inductive Scientific : (cs mantissa : List Char) → (exponent : Int) → Prop where
  | plain {cs : List Char} : 'e' ∉ cs → 'E' ∉ cs → Scientific cs cs 0
  | scaled {mantissa text : List Char} {e : Char} : 'e' ∉ mantissa → 'E' ∉ mantissa →
      e = 'e' ∨ e = 'E' → IsExponent text → Scientific (mantissa ++ e :: text) mantissa (intValue text)

/-- The parts of a mantissa before and after its first point. -/
inductive Pointed : (mantissa integral fraction : List Char) → Prop where
  | whole {cs : List Char} : '.' ∉ cs → Pointed cs cs []
  | parts {integral fraction : List Char} : '.' ∉ integral →
      Pointed (integral ++ '.' :: fraction) integral fraction

/-- A mantissa whose fraction has digits only, and whose parts make up an integer. -/
structure IsMantissa (cs integral fraction : List Char) : Prop where
  parts : Pointed cs integral fraction
  digits : ∀ c ∈ fraction, c.isDigit = true
  integer : IsInteger (integral ++ fraction)

/-- A mantissa and an exponent, without a slash. -/
structure IsDecimal (cs integral fraction : List Char) (exponent : Int) : Prop where
  noSlash : '/' ∉ cs
  mantissa : ∃ mantissa, Scientific cs mantissa exponent ∧ IsMantissa mantissa integral fraction

/-- A decimal counts its digits behind the point in 32-bit words, and so the power of ten wraps
around below -2³¹. -/
def scale (exponent : Int) (fraction : List Char) : Int :=
  Int.bmod (exponent - fraction.length) 4294967296

theorem scaleByTen_eq (n scale : Int) : scaleByTen n scale = n * (10 : Rat) ^ scale := by
  rw [scaleByTen]
  split
  · next h =>
    obtain ⟨k, rfl⟩ := Int.eq_ofNat_of_zero_le h
    simp
  · next h =>
    obtain ⟨k, rfl⟩ : ∃ k : Nat, scale = -k := ⟨(-scale).toNat, by omega⟩
    simp [Rat.mkRat_eq_div, div_eq_mul_inv]

theorem pointed_iff {cs integral fraction : List Char} :
    Pointed cs integral fraction ↔
      (cutAt (· = '.') cs).1 = integral ∧ (cutAt (· = '.') cs).2.getD [] = fraction := by
  constructor
  · rintro (h | h)
    · rw [cutAt_of_forall (by simpa [not_imp_not] using fun x hx => ne_of_mem_of_not_mem hx h)]
      exact ⟨rfl, rfl⟩
    · rw [cutAt_append (by simpa using fun x hx => ne_of_mem_of_not_mem hx h) (by simp)]
      exact ⟨rfl, rfl⟩
  · rintro ⟨rfl, rfl⟩
    obtain h | ⟨before, c, after, hbefore, hc, rfl⟩ := forall_or_exists_first (· = '.') cs
    · rw [cutAt_of_forall h]
      exact .whole fun hmem => absurd (h _ hmem) (by simp)
    · obtain rfl : c = '.' := by simpa using hc
      rw [cutAt_append hbefore hc]
      exact .parts fun hmem => absurd (hbefore _ hmem) (by simp)

theorem readDecimal?_eq_some {mantissa : List Char} {e : Int} {q : Rat} :
    readDecimal? mantissa e = some q ↔ ∃ integral fraction, IsMantissa mantissa integral fraction ∧
      fraction.length < 2147483648 ∧
      intValue (integral ++ fraction) * (10 : Rat) ^ scale e fraction = q := by
  rw [readDecimal?]
  constructor
  · intro h
    dsimp only at h
    split at h
    · simp at h
    · next hdigits =>
      obtain ⟨n, hn, h⟩ := Option.bind_eq_some_iff.1 h
      obtain ⟨hinteger, rfl⟩ := readInt?_eq_some.1 hn
      obtain ⟨hshort, rfl⟩ : _ ∧ _ = q := by simpa using h
      refine ⟨_, _, ⟨pointed_iff.2 ⟨rfl, rfl⟩, by simpa using hdigits, hinteger⟩, ?_, ?_⟩
      · simpa [isWord] using hshort
      · rw [scaleByTen_eq, scale]
  · rintro ⟨integral, fraction, h, hshort, rfl⟩
    have hdigits := h.digits
    have hread := readInt?_eq_some.2 ⟨h.integer, rfl⟩
    have hshort : isWord fraction.length = true := by simpa [isWord] using hshort
    obtain ⟨rfl, rfl⟩ := pointed_iff.1 h.parts
    dsimp only
    rw [if_neg (by simpa using hdigits), hread]
    simp [hshort, scaleByTen_eq, scale]

/-! ## Rational numbers -/

theorem readRat?_fraction {numerator denominator : List Char} (h : '/' ∉ numerator) :
    readRat? (numerator ++ '/' :: denominator) = readFraction? numerator denominator := by
  rw [readRat?, cutAt_append (by simpa using fun x hx => ne_of_mem_of_not_mem hx h) (by simp)]

theorem readRat?_plain {cs : List Char} (hslash : '/' ∉ cs) (hlower : 'e' ∉ cs) (hupper : 'E' ∉ cs) :
    readRat? cs = readDecimal? cs 0 := by
  rw [readRat?, cutAt_of_forall (by simpa using fun x hx => ne_of_mem_of_not_mem hx hslash),
    cutAt_of_forall]
  intro x hx
  simp [ne_of_mem_of_not_mem hx hlower, ne_of_mem_of_not_mem hx hupper]

theorem readRat?_scaled {mantissa text : List Char} {e : Char}
    (hslash : '/' ∉ mantissa ++ e :: text) (hlower : 'e' ∉ mantissa) (hupper : 'E' ∉ mantissa)
    (he : e = 'e' ∨ e = 'E') :
    readRat? (mantissa ++ e :: text) = (readExponent? text).bind (readDecimal? mantissa) := by
  rw [readRat?, cutAt_of_forall (by simpa using fun x hx => ne_of_mem_of_not_mem hx hslash),
    cutAt_append _ (by simpa using he)]
  · rfl
  · intro x hx
    simp [ne_of_mem_of_not_mem hx hlower, ne_of_mem_of_not_mem hx hupper]

/-- A text without a slash is read as its mantissa, scaled by its exponent. -/
theorem readRat?_eq_some_of_noSlash {cs : List Char} (hslash : '/' ∉ cs) {q : Rat} :
    readRat? cs = some q ↔
      ∃ mantissa e, Scientific cs mantissa e ∧ readDecimal? mantissa e = some q := by
  constructor
  · intro h
    obtain hnone | ⟨mantissa, e, text, hfirst, he, rfl⟩ :=
      forall_or_exists_first (fun c => c = 'e' || c = 'E') cs
    · have hlower : 'e' ∉ cs := fun hmem => absurd (hnone _ hmem) (by simp)
      have hupper : 'E' ∉ cs := fun hmem => absurd (hnone _ hmem) (by simp)
      rw [readRat?_plain hslash hlower hupper] at h
      exact ⟨cs, 0, .plain hlower hupper, h⟩
    · have hlower : 'e' ∉ mantissa := fun hmem => absurd (hfirst _ hmem) (by simp)
      have hupper : 'E' ∉ mantissa := fun hmem => absurd (hfirst _ hmem) (by simp)
      have he : e = 'e' ∨ e = 'E' := by simpa using he
      rw [readRat?_scaled hslash hlower hupper he] at h
      obtain ⟨exponent, hexponent, h⟩ := Option.bind_eq_some_iff.1 h
      obtain ⟨htext, rfl⟩ := readExponent?_eq_some.1 hexponent
      exact ⟨mantissa, _, .scaled hlower hupper he htext, h⟩
  · rintro ⟨mantissa, e, ⟨hlower, hupper⟩ | ⟨hlower, hupper, he, htext⟩, h⟩
    · rwa [readRat?_plain hslash hlower hupper]
    · rw [readRat?_scaled hslash hlower hupper he, readExponent?_eq_some.2 ⟨htext, rfl⟩]
      exact h

/-- The rational numbers that can be read are the fractions, and the decimals whose digits behind
the point can be counted. -/
theorem readRat?_eq_some {cs : List Char} {q : Rat} :
    readRat? cs = some q ↔
      (∃ numerator denominator, IsFraction cs numerator denominator ∧
        (intValue numerator : Rat) / intValue denominator = q) ∨
      ∃ integral fraction e, IsDecimal cs integral fraction e ∧ fraction.length < 2147483648 ∧
        intValue (integral ++ fraction) * (10 : Rat) ^ scale e fraction = q := by
  constructor
  · intro h
    obtain hnone | ⟨numerator, c, denominator, hfirst, hc, rfl⟩ :=
      forall_or_exists_first (· = '/') cs
    · have hslash : '/' ∉ cs := fun hmem => absurd (hnone _ hmem) (by simp)
      obtain ⟨mantissa, e, hscientific, h⟩ := (readRat?_eq_some_of_noSlash hslash).1 h
      obtain ⟨integral, fraction, hmantissa, hshort, rfl⟩ := readDecimal?_eq_some.1 h
      exact Or.inr ⟨integral, fraction, e, ⟨hslash, mantissa, hscientific, hmantissa⟩, hshort, rfl⟩
    · have hslash : '/' ∉ numerator := fun hmem => absurd (hfirst _ hmem) (by simp)
      obtain rfl : c = '/' := by simpa using hc
      rw [readRat?_fraction hslash] at h
      obtain ⟨habove, hbelow, hzero, rfl⟩ := readFraction?_eq_some.1 h
      exact Or.inl ⟨numerator, denominator, ⟨rfl, hslash, habove, hbelow, hzero⟩, rfl⟩
  · rintro (⟨numerator, denominator, ⟨rfl, hslash, habove, hbelow, hzero⟩, rfl⟩ |
      ⟨integral, fraction, e, ⟨hslash, mantissa, hscientific, hmantissa⟩, hshort, rfl⟩)
    · rw [readRat?_fraction hslash]
      exact readFraction?_eq_some.2 ⟨habove, hbelow, hzero, rfl⟩
    · exact (readRat?_eq_some_of_noSlash hslash).2
        ⟨mantissa, e, hscientific, readDecimal?_eq_some.2 ⟨integral, fraction, hmantissa, hshort, rfl⟩⟩

/-! ## Values -/

/-- The name of an infinity, in any case. -/
def IsInfinity (cs : List Char) : Prop :=
  String.ofList (cs.map Char.toLower) ∈
    ["inf", "+inf", "infinity", "+infinity", "-inf", "-infinity"]

/-- The texts that are a value: an infinity, a fraction or a decimal. -/
inductive IsNumeral (cs : List Char) : Prop where
  | infinity : IsInfinity cs → IsNumeral cs
  | fraction {numerator denominator : List Char} :
      IsFraction cs numerator denominator → IsNumeral cs
  | decimal {integral fraction : List Char} {exponent : Int} :
      IsDecimal cs integral fraction exponent → IsNumeral cs

theorem readInfinity?_isSome {cs : List Char} : (readInfinity? cs).isSome = true ↔ IsInfinity cs := by
  unfold readInfinity? IsInfinity
  dsimp only
  split
  · next h =>
    simp only [List.mem_cons, List.not_mem_nil, or_false] at h ⊢
    rcases h with h | h | h | h <;> simp [h]
  · next hpos =>
    split
    · next hneg =>
      simp only [List.mem_cons, List.not_mem_nil, or_false] at hneg ⊢
      rcases hneg with h | h <;> simp [h]
    · next hneg =>
      simp only [List.mem_cons, List.not_mem_nil, or_false] at hpos hneg ⊢
      simp_all

/-- The names of the infinities have a letter that no number has. -/
theorem IsInfinity.exists_toLower {cs : List Char} (h : IsInfinity cs) :
    ∃ c ∈ cs, c.toLower = 'n' := by
  have hname : ∀ name ∈ ["inf", "+inf", "infinity", "+infinity", "-inf", "-infinity"],
      'n' ∈ name.toList := by decide
  rw [← List.mem_map]
  simpa using hname _ h

theorem toLower_ne_of_isDigit {c : Char} (h : c.isDigit = true) : c.toLower ≠ 'n' := by
  have hupper : ¬ c.isUpper = true := by
    simp only [Char.isDigit, Char.isUpper, UInt32.le_iff_toNat_le] at h ⊢
    simp at h ⊢
    omega
  rw [Char.toLower_eq_of_not_isUpper hupper]
  rintro rfl
  exact absurd h (by decide)

theorem IsInteger.toLower_ne {cs : List Char} (h : IsInteger cs) : ∀ c ∈ cs, c.toLower ≠ 'n' := by
  have hnatural {cs : List Char} (h : IsNatural cs) : ∀ c ∈ cs, c.toLower ≠ 'n' := by
    intro c hc
    obtain hdigit | rfl := h.grouped c hc
    · exact toLower_ne_of_isDigit hdigit
    · decide
  obtain h | h | h := h
  · exact hnatural h
  · exact List.forall_mem_cons.2 ⟨by decide, hnatural h⟩
  · exact List.forall_mem_cons.2 ⟨by decide, hnatural h⟩

theorem IsFraction.not_isInfinity {cs numerator denominator : List Char}
    (h : IsFraction cs numerator denominator) : ¬ IsInfinity cs := by
  intro hinf
  obtain ⟨c, hc, hn⟩ := hinf.exists_toLower
  obtain hc | rfl | hc : c ∈ numerator ∨ c = '/' ∨ c ∈ denominator := by simpa [h.slash] using hc
  · exact h.above.toLower_ne c hc hn
  · exact absurd hn (by decide)
  · exact h.below.toLower_ne c hc hn

theorem IsMantissa.toLower_ne {cs integral fraction : List Char}
    (h : IsMantissa cs integral fraction) : ∀ c ∈ cs, c.toLower ≠ 'n' := by
  have hparts := List.forall_mem_append.1 h.integer.toLower_ne
  obtain hpoint | hpoint := h.parts
  · exact hparts.1
  · exact List.forall_mem_append.2 ⟨hparts.1, List.forall_mem_cons.2 ⟨by decide, hparts.2⟩⟩

theorem IsDecimal.not_isInfinity {cs integral fraction : List Char} {e : Int}
    (h : IsDecimal cs integral fraction e) : ¬ IsInfinity cs := by
  intro hinf
  obtain ⟨c, hc, hn⟩ := hinf.exists_toLower
  obtain ⟨mantissa, ⟨-, -⟩ | ⟨-, -, hletter, htext⟩, hmantissa⟩ := h.mantissa
  · exact hmantissa.toLower_ne c hc hn
  · rw [List.mem_append, List.mem_cons] at hc
    obtain hc | rfl | hc := hc
    · exact hmantissa.toLower_ne c hc hn
    · obtain rfl | rfl := hletter <;> exact absurd hn (by decide)
    · exact htext.integer.toLower_ne c hc hn

/-! ## What can be read -/

/-- The digits behind the point of a decimal are as many as a 32-bit word can count. -/
def IsCountable (cs : List Char) : Prop :=
  ∀ integral fraction exponent, IsDecimal cs integral fraction exponent →
    fraction.length < 2147483648

/-- The digits behind the point of a decimal do not take the power of ten below -2³¹. -/
def IsScalable (cs : List Char) : Prop :=
  ∀ integral fraction exponent, IsDecimal cs integral fraction exponent →
    -2147483648 ≤ exponent - fraction.length

/-- The first letter `e` ends the mantissa. -/
theorem Scientific.cutAt {cs mantissa : List Char} {e : Int} (h : Scientific cs mantissa e) :
    (cutAt (fun c => c = 'e' || c = 'E') cs).1 = mantissa := by
  have hfirst {cs : List Char} (hlower : 'e' ∉ cs) (hupper : 'E' ∉ cs) :
      ∀ c ∈ cs, (decide (c = 'e') || decide (c = 'E')) = false := by
    intro c hc
    simp [ne_of_mem_of_not_mem hc hlower, ne_of_mem_of_not_mem hc hupper]
  obtain ⟨hlower, hupper⟩ | ⟨hlower, hupper, hletter, -⟩ := h
  · rw [cutAt_of_forall (hfirst hlower hupper)]
  · rw [cutAt_append (hfirst hlower hupper) (by simpa using hletter)]

/-- A text is a decimal in one way only, as far as its fraction goes. -/
theorem IsDecimal.fraction_eq {cs integral fraction integral' fraction' : List Char} {e e' : Int}
    (h : IsDecimal cs integral fraction e) (h' : IsDecimal cs integral' fraction' e') :
    fraction = fraction' := by
  obtain ⟨mantissa, hscientific, hmantissa⟩ := h.mantissa
  obtain ⟨mantissa', hscientific', hmantissa'⟩ := h'.mantissa
  obtain rfl : mantissa = mantissa' := hscientific.cutAt.symm.trans hscientific'.cutAt
  exact (pointed_iff.1 hmantissa.parts).2.symm.trans (pointed_iff.1 hmantissa'.parts).2

theorem IsDecimal.isCountable {cs integral fraction : List Char} {e : Int}
    (h : IsDecimal cs integral fraction e) : IsCountable cs ↔ fraction.length < 2147483648 := by
  constructor
  · intro hcs
    exact hcs integral fraction e h
  · intro hshort integral' fraction' e' h'
    rwa [← h.fraction_eq h']

theorem IsFraction.not_isDecimal {cs numerator denominator integral fraction : List Char} {e : Int}
    (h : IsFraction cs numerator denominator) : ¬ IsDecimal cs integral fraction e := by
  intro hdecimal
  apply hdecimal.noSlash
  rw [h.slash]
  simp

theorem readTrimmed?_isSome {cs : List Char} :
    (readTrimmed? cs).isSome = true ↔ IsNumeral cs ∧ IsCountable cs := by
  rw [readTrimmed?]
  cases hinf : readInfinity? cs with
  | some x =>
    have h : IsInfinity cs := readInfinity?_isSome.1 (by simp [hinf])
    simpa using ⟨IsNumeral.infinity h, fun _ _ _ hdecimal => absurd h hdecimal.not_isInfinity⟩
  | none =>
    have hnot : ¬ IsInfinity cs := fun h => by simpa [hinf] using readInfinity?_isSome.2 h
    rw [Option.isSome_map, Option.isSome_iff_exists]
    constructor
    · rintro ⟨q, hq⟩
      obtain ⟨n, d, h, -⟩ | ⟨i, f, e, h, hshort, -⟩ := readRat?_eq_some.1 hq
      · exact ⟨.fraction h, fun _ _ _ hdecimal => absurd hdecimal h.not_isDecimal⟩
      · exact ⟨.decimal h, h.isCountable.2 hshort⟩
    · rintro ⟨h | h | h, hcountable⟩
      · exact absurd h hnot
      · exact ⟨_, readRat?_eq_some.2 (Or.inl ⟨_, _, h, rfl⟩)⟩
      · exact ⟨_, readRat?_eq_some.2 (Or.inr ⟨_, _, _, h, h.isCountable.1 hcountable, rfl⟩)⟩

/-- What can be read: the numerals with blanks around them whose digits behind the point can be
counted. -/
theorem exists_read_iff {text : String} : (∃ x, read text = .ok x) ↔
    IsNumeral (Text.trim text.toList) ∧ IsCountable (Text.trim text.toList) := by
  rw [← readTrimmed?_isSome, read]
  cases readTrimmed? (Text.trim text.toList) with
  | some x => simp
  | none => simp

theorem read_eq_error {text : String} (h : ¬ ∃ x, read text = .ok x) :
    read text = .error ⟨String.ofList (Text.trim text.toList)⟩ := by
  rw [read] at h ⊢
  cases hread : readTrimmed? (Text.trim text.toList) with
  | some x => simp [hread] at h
  | none => rfl

/-- Reading succeeds on the numerals with blanks around them whose digits behind the point can be
counted, as far as these leave the power of ten in its range, and on no other text but such
numerals. The error of every other text is the text without the blanks. -/
theorem read_accepts (text : String) :
    (IsNumeral (Text.trim text.toList) ∧ IsCountable (Text.trim text.toList) ∧
        IsScalable (Text.trim text.toList) → ∃ x, read text = .ok x) ∧
      ((∃ x, read text = .ok x) →
        IsNumeral (Text.trim text.toList) ∧ IsCountable (Text.trim text.toList)) ∧
      (¬ (IsNumeral (Text.trim text.toList) ∧ IsCountable (Text.trim text.toList)) →
        read text = .error ⟨String.ofList (Text.trim text.toList)⟩) := by
  refine ⟨?_, exists_read_iff.1, ?_⟩
  · rintro ⟨hnumeral, hcountable, -⟩
    exact exists_read_iff.2 ⟨hnumeral, hcountable⟩
  · intro h
    exact read_eq_error (mt exists_read_iff.1 h)

/-- A point and digits behind it are a numeral, however many there are. -/
theorem isDecimal_point {cs : List Char} (hne : cs ≠ []) (hcs : ∀ c ∈ cs, c.isDigit = true) :
    IsDecimal ('.' :: cs) [] cs 0 := by
  have hnotMem {c : Char} (hc : c.isDigit = false) : c ∉ cs := by
    intro h
    rw [hcs c h] at hc
    cases hc
  refine ⟨?_, '.' :: cs, .plain ?_ ?_, .parts List.not_mem_nil, hcs, .unsigned ⟨hne, ?_, ?_⟩⟩
  · simpa using hnotMem (c := '/') rfl
  · simpa using hnotMem (c := 'e') rfl
  · simpa using hnotMem (c := 'E') rfl
  · exact fun h => hnotMem (c := '_') rfl (List.mem_of_head? h)
  · exact fun c hc => Or.inl (hcs c hc)

theorem isBlank_eq_false_of_isDigit {c : Char} (h : c.isDigit = true) : Text.isBlank c = false := by
  have hcode : 48 ≤ c.toNat ∧ c.toNat ≤ 57 := by
    simpa [Char.isDigit, UInt32.le_iff_toNat_le] using h
  simp only [Text.isBlank, Bool.or_eq_false_iff, Bool.and_eq_false_iff, decide_eq_false_iff_not,
    beq_eq_false_iff_ne]
  omega

/-- A point and digits behind it can be read exactly if the digits can be counted. -/
theorem exists_read_point_iff {cs : List Char} (hne : cs ≠ []) (hcs : ∀ c ∈ cs, c.isDigit = true) :
    IsNumeral (Text.trim (String.ofList ('.' :: cs)).toList) ∧
      ((∃ x, read (String.ofList ('.' :: cs)) = .ok x) ↔ cs.length < 2147483648) := by
  have hblank : ∀ c ∈ '.' :: cs, Text.isBlank c = false := by
    intro c hc
    obtain rfl | hc := List.mem_cons.1 hc
    · decide
    · exact isBlank_eq_false_of_isDigit (hcs c hc)
  have htrim : Text.trim (String.ofList ('.' :: cs)).toList = '.' :: cs := by
    rw [String.toList_ofList]
    apply Text.trim_of_not_blank
    · exact fun c hc => hblank c (List.mem_of_head? hc)
    · exact fun c hc => hblank c (List.mem_of_getLast? hc)
  have hdecimal := isDecimal_point hne hcs
  rw [exists_read_iff, htrim, hdecimal.isCountable]
  exact ⟨.decimal hdecimal, and_iff_right (.decimal hdecimal)⟩

/-- The grammar alone does not say what can be read: 2³¹ digits behind the point are too many. -/
theorem read_uncountable :
    IsNumeral (Text.trim (String.ofList ('.' :: List.replicate 2147483648 '0')).toList) ∧
      ¬ ∃ x, read (String.ofList ('.' :: List.replicate 2147483648 '0')) = .ok x := by
  obtain ⟨cs, hcs⟩ : ∃ cs, cs = List.replicate 2147483648 '0' := ⟨_, rfl⟩
  have hlength : cs.length = 2147483648 := by rw [hcs, List.length_replicate]
  have hne : cs ≠ [] := by
    rintro rfl
    simp at hlength
  have hdigits : ∀ c ∈ cs, c.isDigit = true := by
    intro c hc
    rw [hcs] at hc
    rw [List.eq_of_mem_replicate hc]
    rfl
  obtain ⟨hnumeral, hread⟩ := exists_read_point_iff hne hdigits
  rw [← hcs, hread, hlength]
  exact ⟨hnumeral, lt_irrefl _⟩

-- The parts of a mantissa need not be numbers by themselves, only together.
example : (readTrimmed? "-.5e1".toList).isSome = true ∧ (readTrimmed? "1_.5".toList).isSome = true ∧
    (readTrimmed? "1.2_5".toList).isSome = false := by decide

/-! ## The value of a numeral -/

theorem readTrimmed?_of_not_isInfinity {cs : List Char} (h : ¬ IsInfinity cs) :
    readTrimmed? cs = (readRat? cs).map finite := by
  have hnone : readInfinity? cs = none := by
    rwa [← readInfinity?_isSome, Option.not_isSome_iff_eq_none] at h
  rw [readTrimmed?, hnone]

/-- A fraction is read as the quotient of its parts. -/
theorem read_fraction {text : String} {numerator denominator : List Char}
    (h : IsFraction (Text.trim text.toList) numerator denominator) :
    read text = .ok (finite (intValue numerator / intValue denominator)) := by
  have hread := readRat?_eq_some.2 (Or.inl ⟨numerator, denominator, h, rfl⟩)
  simp [read, readTrimmed?_of_not_isInfinity h.not_isInfinity, hread]

/-- A decimal is read as the integer that its digits make up, times the power of ten that the
exponent and the digits behind the point leave in 32-bit words. -/
theorem read_decimal {text : String} {integral fraction : List Char} {e : Int}
    (h : IsDecimal (Text.trim text.toList) integral fraction e)
    (hshort : fraction.length < 2147483648) :
    read text = .ok (finite (intValue (integral ++ fraction) * 10 ^ scale e fraction)) := by
  have hread := readRat?_eq_some.2 (Or.inr ⟨integral, fraction, e, h, hshort, rfl⟩)
  simp [read, readTrimmed?_of_not_isInfinity h.not_isInfinity, hread]

/-- An exponent is within the range of a 32-bit word, present or not. -/
theorem Scientific.isWord {cs mantissa : List Char} {e : Int} (h : Scientific cs mantissa e) :
    -2147483648 ≤ e ∧ e < 2147483648 := by
  obtain _ | ⟨-, -, -, htext⟩ := h
  · decide
  · exact ⟨htext.lower, htext.upper⟩

/-- The value is that of positional notation as long as the digits behind the point do not take the
power of ten below -2³¹. -/
theorem read_decimal_of_le {text : String} {integral fraction : List Char} {e : Int}
    (h : IsDecimal (Text.trim text.toList) integral fraction e)
    (hshort : fraction.length < 2147483648) (hlower : -2147483648 ≤ e - fraction.length) :
    read text =
      .ok (finite (intValue (integral ++ fraction) * 10 ^ (e - fraction.length : Int))) := by
  obtain ⟨mantissa, hscientific, -⟩ := h.mantissa
  have hupper := hscientific.isWord.2
  have hscale : scale e fraction = e - fraction.length := by
    rw [scale, Int.bmod_eq_of_le] <;> omega
  rw [read_decimal h hshort, hscale]

/-- Beyond that the power of ten wraps around, and a value below one becomes a multiple of ten. -/
theorem read_decimal_of_lt {text : String} {integral fraction : List Char} {e : Int}
    (h : IsDecimal (Text.trim text.toList) integral fraction e)
    (hshort : fraction.length < 2147483648) (hlower : e - fraction.length < -2147483648) :
    ∃ k : Nat, e - fraction.length + 4294967296 = k ∧ 0 < k ∧
      read text = .ok (finite (intValue (integral ++ fraction) * 10 ^ k)) := by
  obtain ⟨mantissa, hscientific, -⟩ := h.mantissa
  have hword := hscientific.isWord.1
  obtain ⟨k, hk⟩ := Int.eq_ofNat_of_zero_le (a := e - fraction.length + 4294967296) (by omega)
  have hscale : scale e fraction = k := by
    rw [scale, ← hk, ← Int.add_bmod_right, Int.bmod_eq_of_le] <;> omega
  refine ⟨k, hk, by omega, ?_⟩
  rw [read_decimal h hshort, hscale, zpow_natCast]

end Extended

end CertifiedLp
