import Mathlib
import CertifiedLp.Proofs.Incidence.Counts

/-!
# Searching a part

Bisection returns a position of the part, and in a part without descents it returns one of the
partner if there is one.
-/

namespace CertifiedLp

open Reference (index)

namespace Incidence

variable {κ : Type} [Reference κ] {l : Incidence κ} {part : Part} {partner : κ} {e : Entry κ}
variable {key base size i j position : Nat}

theorem bisect_mem (l : Incidence κ) (key base : Nat) (hsize : 0 < size) :
    base ≤ l.bisect key base size ∧ l.bisect key base size < base + size := by
  induction size using Nat.strong_induction_on generalizing base with
  | _ size ih =>
    rw [bisect]
    split
    · omega
    · have hsmaller := ih (size - size / 2) (by omega)
        (if key < l.keyAt (base + size / 2) then base else base + size / 2) (by omega)
      dsimp only
      split at hsmaller <;> split <;> omega

/-- Everything behind the position that bisection ends at is too large. -/
theorem lt_keyAt_of_bisect_lt (key j : Nat)
    (hsorted : ∀ i j, base ≤ i → i ≤ j → j < base + size → l.keyAt i ≤ l.keyAt j)
    (hj : l.bisect key base size < j) (hlt : j < base + size) : key < l.keyAt j := by
  induction size using Nat.strong_induction_on generalizing base with
  | _ size ih =>
    rw [bisect] at hj
    split at hj
    · omega
    · dsimp only at hj
      split at hj
      · next hmiddle =>
        by_cases hleft : j < base + (size - size / 2)
        · refine ih (size - size / 2) (by omega) (fun i j hi hij hj => ?_) hj hleft
          exact hsorted i j hi hij (by omega)
        · exact Nat.lt_of_lt_of_le hmiddle (hsorted _ _ (by omega) (by omega) hlt)
      · refine ih (size - size / 2) (by omega) (fun i j hi hij hj => ?_) hj (by omega)
        exact hsorted i j (by omega) hij (by omega)

theorem keyAt_bisect_le (l : Incidence κ) (key base size : Nat)
    (h : base < l.bisect key base size) :
    l.keyAt (l.bisect key base size) ≤ key := by
  induction size using Nat.strong_induction_on generalizing base with
  | _ size ih =>
    rw [bisect] at h ⊢
    split
    · next hsmall => simp [hsmall] at h
    · next hsize =>
      rw [if_neg hsize] at h
      dsimp only at h ⊢
      split
      · next hmiddle =>
        rw [if_pos hmiddle] at h
        exact ih _ (by omega) _ h
      · next hmiddle =>
        rcases Nat.lt_or_ge (base + size / 2)
          (l.bisect key (base + size / 2) (size - size / 2)) with hlt | hge
        · exact ih _ (by omega) _ hlt
        · have hmem := bisect_mem l key (base + size / 2)
            (show 0 < size - size / 2 by omega)
          rw [show l.bisect key (base + size / 2) (size - size / 2) = base + size / 2 by omega]
          omega

/-! ## Parts in order -/

theorem keyAt_of_getElem? (he : l.entries[position]? = some e) :
    l.keyAt position = index e.partner := by
  rw [keyAt, entry?, he]
  rfl

/-- A part without descents is in ascending order. -/
theorem keyAt_le_of_isSorted (h : l.Counted) (hactive : l.nrActive ≤ l.size)
    (hsorted : l.isSorted part = true) (hi : (l.range part).1 ≤ i) (hij : i ≤ j)
    (hj : j < (l.range part).2) : l.keyAt i ≤ l.keyAt j := by
  induction hij with
  | refl => exact Nat.le_refl _
  | @step j hij ih =>
    replace hij : i ≤ j := hij
    refine Nat.le_trans (ih (by omega)) ?_
    by_contra hlt
    have hsize : j + 1 < l.size := Nat.lt_of_lt_of_le hj (range_snd_le hactive part)
    have hpart {q : Nat} (hq : (l.range part).1 ≤ q) (hq' : q < (l.range part).2) :
        l.partOf q = part := by
      rw [partOf]
      cases part <;> simp only [range] at hq hq'
      · rw [if_pos hq']
      · rw [if_neg (by omega)]
    have hsize' : j < l.entries.size := Nat.lt_of_succ_lt hsize
    have hfirst : l.entries[j]? = some l.entries[j] := Array.getElem?_eq_getElem hsize'
    have hsecond : l.entries[j + 1]? = some l.entries[j + 1] := Array.getElem?_eq_getElem hsize
    have hdescent : l.descentIn part j = true := by
      refine descentIn_iff.mpr ⟨_, _, hfirst, hsecond, hpart (by omega) (by omega),
        hpart (by omega) hj, ?_⟩
      rw [keyAt_of_getElem? hfirst, Nat.succ_eq_add_one, keyAt_of_getElem? hsecond] at hlt
      omega
    have hcount := h.descents part
    rw [isSorted, beq_iff_eq] at hsorted
    rw [hsorted, countDescents_eq (Nat.le_refl _), eq_comm, List.countP_eq_zero] at hcount
    exact hcount j (List.mem_range.mpr (by omega)) hdescent

/-- What is found has the partner. -/
theorem getElem?_of_find? (hactive : l.nrActive ≤ l.size)
    (h : l.find? part partner = some position) :
    (l.range part).1 ≤ position ∧ position < (l.range part).2 ∧
      ∃ e, l.entries[position]? = some e ∧ e.partner = partner := by
  rw [find?] at h
  dsimp only at h
  split at h
  · cases h
  · split at h
    · next hrange hkey =>
      obtain rfl := Option.some.inj h
      have hmem := bisect_mem l (index partner) (l.range part).1
        (show 0 < (l.range part).2 - (l.range part).1 by omega)
      set position := l.bisect (index partner) (l.range part).1
        ((l.range part).2 - (l.range part).1)
      have hlt : position < l.entries.size :=
        Nat.lt_of_lt_of_le (by omega) (range_snd_le hactive part)
      have he : l.entries[position]? = some l.entries[position] := Array.getElem?_eq_getElem hlt
      refine ⟨hmem.1, by omega, _, he, ?_⟩
      rw [keyAt_of_getElem? he] at hkey
      exact Reference.index_injective hkey
    · cases h

/-- If nothing is found in a sorted part, then there is nothing. -/
theorem ne_of_find?_eq_none (hcounted : l.Counted) (hactive : l.nrActive ≤ l.size)
    (hsorted : l.isSorted part = true) (h : l.find? part partner = none)
    (he : l.entries[i]? = some e) (hi : (l.range part).1 ≤ i) (hi' : i < (l.range part).2) :
    e.partner ≠ partner := by
  rintro rfl
  rw [find?] at h
  dsimp only at h
  rw [if_neg (by omega)] at h
  split at h
  · cases h
  · next hkey =>
    have hmem := bisect_mem l (index e.partner) (l.range part).1
      (show 0 < (l.range part).2 - (l.range part).1 by omega)
    have hmono : ∀ a b, (l.range part).1 ≤ a → a ≤ b →
        b < (l.range part).1 + ((l.range part).2 - (l.range part).1) → l.keyAt a ≤ l.keyAt b :=
      fun a b ha hab hb => keyAt_le_of_isSorted hcounted hactive hsorted ha hab (by omega)
    have hle := keyAt_bisect_le l (index e.partner) (l.range part).1
      ((l.range part).2 - (l.range part).1)
    have hbehind := lt_keyAt_of_bisect_lt (index e.partner) i hmono
    set position := l.bisect (index e.partner) (l.range part).1
      ((l.range part).2 - (l.range part).1)
    have hkeyi := keyAt_of_getElem? he
    rcases Nat.lt_trichotomy i position with hlt | heq | hgt
    · have hbelow := hmono i position hi (by omega) (by omega)
      have hupper := hle (by omega)
      omega
    · exact hkey (by rw [← heq, hkeyi])
    · have habove := hbehind hgt (by omega)
      omega

end Incidence

end CertifiedLp
