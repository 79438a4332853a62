import Mathlib
import CertifiedLp.Solver.Batch

/-!
# Lines of a batch

The coefficients of a batch are read back line by line, as they were appended.
-/

namespace CertifiedLp

namespace Compressed

variable {c : Compressed} {line : Nat}

/-- The lists of a compressed batch fit together. -/
structure Regular (c : Compressed) : Prop where
  values : c.values.size = c.indices.size
  starts : ∀ (i start : Nat), c.starts[i]? = some start → start ≤ c.indices.size

theorem regular_empty : empty.Regular where
  values := rfl
  starts _ _ h := by cases h

theorem Regular.push (h : c.Regular) (items : List (Nat × Extended)) : (c.push items).Regular where
  values := by simp [Compressed.push, h.values]
  starts i start hstart := by
    rw [Compressed.push, Array.getElem?_push] at hstart
    have hle : start ≤ c.indices.size := by
      split at hstart
      · exact (Option.some.inj hstart).ge
      · exact h.starts i start hstart
    simp only [Compressed.push, Array.size_append]
    exact Nat.le_add_right_of_le hle

/-- What is appended to a list does not show in a part before it. -/
theorem extract_append_of_le {α : Type} (xs ys : Array α) {start stop : Nat} (h : stop ≤ xs.size) :
    (xs ++ ys).extract start stop = xs.extract start stop := by
  rw [Array.extract_append, Nat.sub_eq_zero_of_le h, Array.extract_zero, Array.append_empty]

/-- Another line does not change the lines before it. -/
theorem Regular.items_push_of_lt (h : c.Regular) (hline : line < c.starts.size)
    (items : List (Nat × Extended)) : (c.push items).items line = c.items line := by
  rw [Compressed.items, Compressed.items, range?_push_of_lt hline]
  cases hrange : c.range? line with
  | none => rfl
  | some range =>
    obtain ⟨start, stop⟩ := range
    have hstop : stop ≤ c.indices.size := by
      obtain ⟨_, -, heq⟩ := Option.map_eq_some_iff.mp hrange
      rw [← (Prod.mk.inj heq).2]
      cases hnext : c.starts[line + 1]? with
      | none => exact Nat.le_refl _
      | some next => exact h.starts _ _ hnext
    simp only [Compressed.push, extract_append_of_le _ _ hstop,
      extract_append_of_le _ _ (h.values.symm ▸ hstop)]

/-- Several lines, one after the other. -/
def ofLines (lines : List (List (Nat × Extended))) : Compressed := lines.foldl push empty

theorem ofLines_concat (lines : List (List (Nat × Extended))) (items : List (Nat × Extended)) :
    ofLines (lines ++ [items]) = (ofLines lines).push items := by
  rw [ofLines, List.foldl_append]
  rfl

theorem regular_ofLines (lines : List (List (Nat × Extended))) : (ofLines lines).Regular := by
  induction lines using List.reverseRecOn with
  | nil => exact regular_empty
  | append_singleton lines items ih =>
    rw [ofLines_concat]
    exact ih.push items

@[simp] theorem size_starts_ofLines (lines : List (List (Nat × Extended))) :
    (ofLines lines).starts.size = lines.length := by
  induction lines using List.reverseRecOn with
  | nil => rfl
  | append_singleton lines items ih => simp [ofLines_concat, ih]

/-- Every line is read back as it was appended. -/
theorem items_ofLines {lines : List (List (Nat × Extended))} {items : List (Nat × Extended)}
    (h : lines[line]? = some items) : (ofLines lines).items line = items := by
  induction lines using List.reverseRecOn with
  | nil => cases h
  | append_singleton lines last ih =>
    have hregular := regular_ofLines lines
    have hsize := size_starts_ofLines lines
    rw [ofLines_concat]
    rcases Nat.lt_or_ge line lines.length with hlt | hge
    · rw [List.getElem?_append_left hlt] at h
      rw [hregular.items_push_of_lt (hsize.symm ▸ hlt), ih h]
    · obtain rfl : line = lines.length := by
        have hbound := (List.getElem?_eq_some_iff.mp h).1
        rw [List.length_append, List.length_singleton] at hbound
        omega
      rw [List.getElem?_concat_length, Option.some_inj] at h
      rw [← hsize, items_push_self hregular.values, h]

end Compressed

end CertifiedLp
