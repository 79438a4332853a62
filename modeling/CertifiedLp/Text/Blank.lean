/-!
# Blank characters

The characters with the Unicode property `White_Space`, and cutting them off both ends of a text.
-/

namespace CertifiedLp.Text

/-- Whether a character is white space: a control character such as tab or line feed, the space,
or one of the spaces and separators outside of ASCII. -/
def isBlank (c : Char) : Bool :=
  let code := c.toNat
  (9 ≤ code && code ≤ 13) || code == 0x20 || code == 0x85 || code == 0xa0 || code == 0x1680 ||
    (0x2000 ≤ code && code ≤ 0x200a) || code == 0x2028 || code == 0x2029 || code == 0x202f ||
    code == 0x205f || code == 0x3000

/-- The table contains the white space of ASCII. -/
theorem isBlank_of_isWhitespace {c : Char} (h : c.isWhitespace = true) : isBlank c = true := by
  simp only [Char.isWhitespace, Bool.or_eq_true, decide_eq_true_eq] at h
  rcases h with ((h | h) | h) | h <;> subst h <;> decide

/-- A text without the blanks at its ends. -/
def trim (cs : List Char) : List Char :=
  ((cs.dropWhile isBlank).reverse.dropWhile isBlank).reverse

/-- Blanks around a text do not matter. -/
theorem trim_surround {before cs after : List Char} (hbefore : ∀ c ∈ before, isBlank c = true)
    (hafter : ∀ c ∈ after, isBlank c = true) : trim (before ++ cs ++ after) = trim cs := by
  unfold trim
  rw [List.append_assoc, List.dropWhile_append_of_pos hbefore, List.dropWhile_append]
  split
  · next h =>
    have hnil : after.dropWhile isBlank = [] := by
      rw [← List.append_nil after, List.dropWhile_append_of_pos hafter, List.dropWhile_nil]
    rw [hnil, List.isEmpty_iff.1 h]
  · rw [List.reverse_append, List.dropWhile_append_of_pos fun c hc => hafter c (by simpa using hc)]

/-- A text that neither starts nor ends with a blank stays as it is. -/
theorem trim_of_not_blank {cs : List Char} (hfirst : ∀ c ∈ cs.head?, isBlank c = false)
    (hlast : ∀ c ∈ cs.getLast?, isBlank c = false) : trim cs = cs := by
  have keep {xs : List Char} (h : ∀ c ∈ xs.head?, isBlank c = false) :
      xs.dropWhile isBlank = xs := by
    cases xs with
    | nil => rfl
    | cons c xs => rw [List.dropWhile_cons_of_neg (by simp [h c rfl])]
  rw [trim, keep hfirst, keep (by simpa using hlast), List.reverse_reverse]

end CertifiedLp.Text
