import Mathlib
import CertifiedLp.Proofs.Incidence.Search

/-!
# The parts of an incidence list

A list is read part by part. What an entry says is its partner, its value and whether it is linked;
the position of its counterpart says nothing about the list itself. A list is *reordered* if both
parts say the same as before, in another order.
-/

namespace CertifiedLp

open Reference (index)

/-- The first elements of a list are those that pass a test, if exactly they do. -/
theorem take_eq_filter {α : Type} {xs : List α} {n : Nat} {p : α → Bool}
    (h : ∀ i x, xs[i]? = some x → (i < n ↔ p x = true)) : xs.take n = xs.filter p := by
  induction xs generalizing n with
  | nil => rw [List.take_nil, List.filter_nil]
  | cons x xs ih =>
    have hhead := h 0 x rfl
    cases n with
    | zero =>
      have hrest := ih (n := 0) fun i y hy => by simpa using h (i + 1) y hy
      rw [List.take_zero] at hrest ⊢
      rw [List.filter_cons_of_neg (by simpa using hhead), ← hrest]
    | succ n =>
      have hrest := ih (n := n) fun i y hy => by simpa using h (i + 1) y hy
      rw [List.filter_cons_of_pos (by simpa using hhead), List.take_succ_cons, hrest]

theorem drop_eq_filter {α : Type} {xs : List α} {n : Nat} {p : α → Bool}
    (h : ∀ i x, xs[i]? = some x → (i < n ↔ p x = false)) : xs.drop n = xs.filter p := by
  induction xs generalizing n with
  | nil => rw [List.drop_nil, List.filter_nil]
  | cons x xs ih =>
    have hhead := h 0 x rfl
    cases n with
    | zero =>
      have hrest := ih (n := 0) fun i y hy => by simpa using h (i + 1) y hy
      rw [List.drop_zero] at hrest ⊢
      rw [List.filter_cons_of_pos (by simpa using hhead), ← hrest]
    | succ n =>
      have hrest := ih (n := n) fun i y hy => by simpa using h (i + 1) y hy
      rw [List.filter_cons_of_neg (by simpa using hhead), List.drop_succ_cons, hrest]

/-- What an entry says: its partner, its value, and whether it is linked. -/
def Entry.content {κ : Type} (e : Entry κ) : κ × Extended × Bool :=
  (e.partner, e.value, e.link.isSome)

namespace Incidence

variable {κ : Type} {l l' l'' : Incidence κ} {part : Part}

/-- The entries of a part. -/
def inPart (l : Incidence κ) : Part → List (Entry κ)
  | .active => l.entries.toList.take l.nrActive
  | .rest => l.entries.toList.drop l.nrActive

/-- Both parts have the same entries as before, but perhaps in another order. -/
structure Reordered (l l' : Incidence κ) : Prop where
  size : l'.size = l.size
  nrActive : l'.nrActive = l.nrActive
  nrUnlinked : l'.nrUnlinked = l.nrUnlinked
  parts : ∀ part, ((l'.inPart part).map Entry.content).Perm ((l.inPart part).map Entry.content)

theorem Reordered.refl (l : Incidence κ) : l.Reordered l := ⟨rfl, rfl, rfl, fun _ => .refl _⟩

end Incidence

end CertifiedLp
