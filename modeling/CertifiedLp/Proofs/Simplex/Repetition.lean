import Mathlib
import CertifiedLp.Proofs.Simplex.Phases

/-!
# Repetitions that come back

A step that is repeated from a state and never comes back to the same key has to end, because there
are finitely many keys (`NeverRepeats.exists_end`). For a phase of the simplex method the keys are
the statuses of the variables.

If the statuses come back after some pivots, every variable that changed its status changed it back.
`exists_return` picks the largest such variable: it enters the basis in one pivot and leaves it in
another one for the end at which it was when it entered, and no larger variable changes in between.
This is where the argument for Bland's rule starts, in both phases.
-/

namespace CertifiedLp

section Paths

variable {σ ρ κ : Type} {step : σ → σ ⊕ ρ} {path : ℕ → σ} {key : σ → κ} {N : ℕ} {s s' : σ}

/-- A sequence of states, each of them the step after the one before, up to a number of steps. -/
def IsPath (step : σ → σ ⊕ ρ) (path : ℕ → σ) (N : ℕ) : Prop :=
  ∀ i, i < N → step (path i) = .inl (path (i + 1))

theorem IsPath.mono (h : IsPath step path N) {M : ℕ} (hM : M ≤ N) : IsPath step path M :=
  fun i hi => h i (by omega)

/-- A repetition that does not end goes along a path. -/
theorem exists_path (h : iterate step N s = (s', none)) :
    ∃ path, path 0 = s ∧ path N = s' ∧ IsPath step path N := by
  induction N generalizing s with
  | zero => exact ⟨fun _ => s, rfl, congrArg Prod.fst h, fun i hi => absurd hi (by omega)⟩
  | succ N ih =>
    rw [iterate] at h
    split at h
    · next next hnext =>
      obtain ⟨path, hstart, hend, hpath⟩ := ih h
      refine ⟨fun i => if i = 0 then s else path (i - 1), rfl, by simpa using hend, ?_⟩
      rintro (_ | i) hi
      · simpa [hstart] using hnext
      · simpa using hpath i (by omega)
    · cases h

theorem IsPath.iterate_eq (h : IsPath step path N) :
    iterate step N (path 0) = (path N, none) := by
  induction N generalizing path with
  | zero => rfl
  | succ N ih =>
    rw [iterate_of_next (h 0 (by omega))]
    exact ih fun i hi => h (i + 1) (by omega)

/-- What every step preserves holds along a path. -/
theorem IsPath.keeps (h : IsPath step path N) {P : σ → Prop}
    (hstep : ∀ s s', P s → step s = .inl s' → P s') (h0 : P (path 0)) {i : ℕ} (hi : i ≤ N) :
    P (path i) := by
  induction i with
  | zero => exact h0
  | succ i ih => exact hstep _ _ (ih (by omega)) (h i (by omega))

/-- A repetition has different keys after different numbers of steps. -/
def NeverRepeats (step : σ → σ ⊕ ρ) (key : σ → κ) (s : σ) : Prop :=
  ∀ i j x y, iterate step i s = (x, none) → iterate step j s = (y, none) → key x = key y → i = j

/-- It is enough to look at one path. -/
theorem neverRepeats_of_path
    (h : ∀ path N, path 0 = s → IsPath step path N → ∀ i j, i < j → j ≤ N →
      key (path i) ≠ key (path j)) : NeverRepeats step key s := by
  have hlt (i j : ℕ) (x y : σ) (hx : iterate step i s = (x, none))
      (hy : iterate step j s = (y, none)) (hij : i < j) : key x ≠ key y := by
    obtain ⟨path, rfl, rfl, hpath⟩ := exists_path hy
    have hi := (hpath.mono hij.le).iterate_eq
    rw [hx] at hi
    obtain rfl : x = path i := congrArg Prod.fst hi
    exact h path j rfl hpath i j hij le_rfl
  intro i j x y hx hy hkey
  rcases lt_trichotomy i j with hij | hij | hij
  · exact absurd hkey (hlt i j x y hx hy hij)
  · exact hij
  · exact absurd hkey.symm (hlt j i y x hy hx hij)

/-- With more steps than keys, a repetition that never comes back ends. -/
theorem NeverRepeats.exists_end [Fintype κ] (h : NeverRepeats step key s) {fuel : ℕ}
    (hfuel : Fintype.card κ < fuel) : ∃ x r, iterate step fuel s = (x, some r) := by
  rcases hrun : iterate step fuel s with ⟨x, _ | r⟩
  · obtain ⟨path, rfl, -, hpath⟩ := exists_path hrun
    obtain ⟨i, j, hne, hkey⟩ := Fintype.exists_ne_map_eq_of_card_lt
      (fun i : Fin fuel => key (path i)) (by simpa using hfuel)
    refine absurd (h i j _ _ ?_ ?_ hkey) (Fin.val_ne_of_ne hne)
    · exact (hpath.mono i.isLt.le).iterate_eq
    · exact (hpath.mono j.isLt.le).iterate_eq
  · exact ⟨x, r, rfl⟩

end Paths

/-! ## Statuses that come back -/

instance : Fintype BasisStatus where
  elems := {.lower, .basic, .upper, .zero}
  complete s := by cases s <;> decide

/-- What is lost at some time, and there at the end if it was there at the beginning, came back at
some time. -/
theorem exists_regained {P : ℕ → Prop} {N i : ℕ} (hends : P 0 → P N) (hi : i < N) (h : P i)
    (hlost : ¬ P (i + 1)) : ∃ j, j < N ∧ ¬ P j ∧ P (j + 1) := by
  by_contra hnever
  push Not at hnever
  have hbefore : ∀ d, d ≤ i → P (i - d) := by
    intro d
    induction d with
    | zero => exact fun _ => h
    | succ d ih =>
      intro hd
      by_contra hnot
      refine hnever (i - (d + 1)) (by omega) hnot ?_
      rw [show i - (d + 1) + 1 = i - d by omega]
      exact ih (by omega)
  have hafter : ∀ d, i + 1 + d ≤ N → ¬ P (i + 1 + d) := by
    intro d
    induction d with
    | zero => exact fun _ => hlost
    | succ d ih =>
      intro hd
      exact hnever (i + 1 + d) (by omega) (ih (by omega))
  have h0 : P 0 := by simpa using hbefore i le_rfl
  have hN : ¬ P N := by simpa [show i + 1 + (N - (i + 1)) = N by omega] using hafter (N - (i + 1))
  exact hN (hends h0)

section Exchanges

variable {k N : ℕ}

/-- The statuses after a variable entered the basis and another one left it for an end. -/
structure Exchange (before after : Fin k → BasisStatus) (entering leaving : Fin k) (side : Side) :
    Prop where
  outside : before entering ≠ .basic
  inside : before leaving = .basic
  after : ∀ j, after j =
    if leaving = j then side.status else if entering = j then .basic else before j

theorem Exchange.ne {before after : Fin k → BasisStatus} {u v : Fin k} {s : Side}
    (h : Exchange before after u v s) : v ≠ u := by
  rintro rfl
  exact h.outside h.inside

variable {status : ℕ → Fin k → BasisStatus} {entering leaving : ℕ → Fin k} {side : ℕ → Side}

/-- A variable that neither enters nor leaves keeps its status. -/
theorem status_eq_of_not_exchanged
    (h : ∀ i, i < N → Exchange (status i) (status (i + 1)) (entering i) (leaving i) (side i))
    {v : Fin k} (hv : ∀ i, i < N → entering i ≠ v ∧ leaving i ≠ v) {i : ℕ} (hi : i ≤ N) :
    status i v = status 0 v := by
  induction i with
  | zero => rfl
  | succ i ih =>
    rw [(h i hi).after, if_neg (hv i hi).2, if_neg (hv i hi).1]
    exact ih (by omega)

/-- If the statuses are the same again after some exchanges, then the largest variable that took
part in one entered the basis at some time and left it at another time for the end where it had been
before it entered. -/
theorem exists_return (hN : 0 < N)
    (h : ∀ i, i < N → Exchange (status i) (status (i + 1)) (entering i) (leaving i) (side i))
    (hends : status N = status 0) :
    ∃ i j, i < N ∧ j < N ∧ leaving j = entering i ∧
      status i (entering i) = (side j).status ∧
      leaving i ≤ entering i ∧ entering j ≤ entering i ∧
      ∀ v, entering i < v → status i v = status j v := by
  classical
  obtain ⟨u, hu, hmax⟩ := (Finset.univ.filter fun u : Fin k =>
    ∃ i, i < N ∧ (entering i = u ∨ leaving i = u)).exists_max_image id
      ⟨entering 0, by simpa using ⟨0, hN, .inl rfl⟩⟩
  have hmoved : ∃ i, i < N ∧ (entering i = u ∨ leaving i = u) := by simpa using hu
  have hle {v : Fin k} {i : ℕ} (hi : i < N) (hv : entering i = v ∨ leaving i = v) : v ≤ u :=
    hmax v (by simpa using ⟨i, hi, hv⟩)
  have hback (v : BasisStatus) (h0 : status 0 u = v) : status N u = v := by rw [hends, h0]
  -- The variable enters: either it is known to, or it left and has to come back.
  obtain ⟨i, hi, rfl⟩ : ∃ i, i < N ∧ entering i = u := by
    obtain ⟨i, hi, henters | hleaves⟩ := hmoved
    · exact ⟨i, hi, henters⟩
    · have hlost : status (i + 1) u ≠ .basic := by
        rw [(h i hi).after, if_pos hleaves]
        exact Side.status_ne_basic _
      obtain ⟨j, hj, hbefore, hafter⟩ := exists_regained (P := fun i => status i u = .basic)
        (hback _) hi (hleaves ▸ (h i hi).inside) hlost
      refine ⟨j, hj, ?_⟩
      by_contra hne
      rw [(h j hj).after, if_neg hne] at hafter
      split at hafter
      · exact Side.status_ne_basic _ hafter
      · exact hbefore hafter
  have hleft : status (i + 1) (entering i) ≠ status i (entering i) := by
    rw [(h i hi).after, if_neg (h i hi).ne, if_pos rfl]
    exact (h i hi).outside.symm
  obtain ⟨j, hj, hbefore, hafter⟩ := exists_regained
    (P := fun l => status l (entering i) = status i (entering i)) (hback _) hi rfl hleft
  have hleaves : leaving j = entering i := by
    by_contra hne
    rw [(h j hj).after, if_neg hne] at hafter
    split at hafter
    · exact (h i hi).outside hafter.symm
    · exact hbefore hafter
  refine ⟨i, j, hi, hj, hleaves, ?_, hle hi (.inr rfl), hle hj (.inl rfl), fun v hv => ?_⟩
  · rw [← hafter, (h j hj).after, if_pos hleaves]
  · have hkeeps : ∀ l, l < N → entering l ≠ v ∧ leaving l ≠ v := fun l hl =>
      ⟨fun heq => (hle hl (.inl heq)).not_gt hv, fun heq => (hle hl (.inr heq)).not_gt hv⟩
    rw [status_eq_of_not_exchanged h hkeeps hi.le, status_eq_of_not_exchanged h hkeeps hj.le]

end Exchanges

end CertifiedLp
