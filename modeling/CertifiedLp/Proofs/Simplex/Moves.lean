import Mathlib
import CertifiedLp.Proofs.Simplex.Selection

/-!
# Moving along a direction

When one variable outside of the basis moves and the basic variables adapt, all values move along a
direction that solves the equations. Flipping the variable to its other end, or letting it replace
the basic variable of a row, is such a move: `values_flip` and `values_pivot` say how far it goes.
What the blocks of a move are for is `Primal.contains_advance`: as long as no block is passed, all
values stay within their bounds.
-/

namespace CertifiedLp

/-- The step of a variable in one of the two directions. -/
def pace (increase : Bool) : Rat := if increase then 1 else -1

namespace Bounds

variable {b : Bounds} {s : BasisStatus} {increase : Bool} {width distance rate x : Rat}

/-- Whether a variable with a status outside of the basis may move in a direction. -/
def canMove (b : Bounds) (s : BasisStatus) (increase : Bool) : Bool :=
  if increase then b.canIncrease s else b.canDecrease s

/-- A variable that may move is at the end behind it and has room, or has no ends. -/
theorem cases_of_canMove (h : b.Fits s) (hmove : b.canMove s increase = true) :
    (∃ l, b.lower = some l ∧ s = .lower ∧ increase = true ∧ b.hasRoom = true) ∨
      (∃ u, b.upper = some u ∧ s = .upper ∧ increase = false ∧ b.hasRoom = true) ∨
      (b.lower = none ∧ b.upper = none ∧ s = .zero) := by
  cases s with
  | lower =>
    obtain ⟨l, hl⟩ := Option.isSome_iff_exists.mp h
    cases increase with
    | true => exact .inl ⟨l, hl, rfl, rfl, hmove⟩
    | false => cases hmove
  | basic => cases increase <;> cases hmove
  | upper =>
    obtain ⟨u, hu⟩ := Option.isSome_iff_exists.mp h
    cases increase with
    | true => cases hmove
    | false => exact .inr (.inl ⟨u, hu, rfl, rfl, hmove⟩)
  | zero => exact .inr (.inr ⟨h.1, h.2, rfl⟩)

theorem width?_eq_some : b.width? = some width ↔
    ∃ l u, b.lower = some l ∧ b.upper = some u ∧ width = u - l := by
  rw [width?]
  split
  · next l u hl hu => simp [hl, hu, eq_comm]
  · next hends =>
    simp only [reduceCtorEq, false_iff]
    rintro ⟨l, u, hl, hu, -⟩
    exact hends l u hl hu

theorem width_pos (hroom : b.hasRoom = true) (hwidth : b.width? = some width) : 0 < width := by
  obtain ⟨l, u, hl, hu, rfl⟩ := width?_eq_some.mp hwidth
  simpa [hasRoom, hl, hu] using hroom

/-- A variable that may move is not at the end ahead. -/
theorem not_ahead_of_canMove {side : Side} (h : b.Fits s) (hmove : b.canMove s increase = true)
    (hend : b.get side = some (b.statusValue s)) : ¬ side.Ahead (pace increase) := by
  intro hahead
  obtain ⟨l, hl, rfl, rfl, hroom⟩ | ⟨u, hu, rfl, rfl, hroom⟩ | ⟨hl, hu, rfl⟩ :=
    cases_of_canMove h hmove
  · cases side with
    | lower => exact absurd hahead (by simp [Side.Ahead, pace])
    | upper => simp_all [get, hasRoom, statusValue]
  · cases side with
    | lower => simp_all [get, hasRoom, statusValue]
    | upper => exact absurd hahead (by simp [Side.Ahead, pace])
  · cases side <;> simp_all [get]

/-- A variable that may move and has two ends has room between them. -/
theorem width_pos_of_canMove (h : b.Fits s) (hmove : b.canMove s increase = true)
    (hwidth : b.width? = some width) : 0 < width := by
  obtain ⟨-, -, -, -, hroom⟩ | ⟨-, -, -, -, hroom⟩ | ⟨hl, -, -⟩ := cases_of_canMove h hmove
  · exact width_pos hroom hwidth
  · exact width_pos hroom hwidth
  · obtain ⟨l, -, hl', -⟩ := width?_eq_some.mp hwidth
    rw [hl] at hl'
    cases hl'

/-- The move to the other end ends at the value of the flipped status. -/
theorem statusValue_flip (h : b.Fits s) (hmove : b.canMove s increase = true)
    (hwidth : b.width? = some width) :
    b.Fits (if s = .lower then .upper else .lower) ∧
      b.statusValue (if s = .lower then .upper else .lower) =
        b.statusValue s + width * pace increase := by
  obtain ⟨l, u, hl, hu, rfl⟩ := width?_eq_some.mp hwidth
  rcases cases_of_canMove h hmove with ⟨-, -, rfl, rfl, -⟩ | ⟨-, -, rfl, rfl, -⟩ | ⟨hnone, -, -⟩
  · simp [Fits, statusValue, pace, hl, hu]
  · simp [Fits, statusValue, pace, hl, hu]
  · rw [hl] at hnone
    cases hnone

/-- A move that does not pass the other end stays within the bounds. -/
theorem contains_statusValue_add (h : b.Fits s) (hmove : b.canMove s increase = true)
    (hdistance : 0 ≤ distance) (hend : ∀ width, b.width? = some width → distance ≤ width) :
    b.Contains (b.statusValue s + distance * pace increase) := by
  have hwidth {l u : Rat} (hl : b.lower = some l) (hu : b.upper = some u) : distance ≤ u - l :=
    hend _ (width?_eq_some.mpr ⟨l, u, hl, hu, rfl⟩)
  rcases cases_of_canMove h hmove with ⟨l, hl, rfl, rfl, -⟩ | ⟨u, hu, rfl, rfl, -⟩ |
    ⟨hlower, hupper, -⟩
  · constructor
    · intro l' hl'
      obtain rfl : l = l' := Option.some.inj (hl.symm.trans hl')
      simpa [statusValue, pace, hl] using hdistance
    · intro u hu
      have := hwidth hl hu
      simp only [statusValue, hl, pace, Option.getD_some, if_true]
      linarith
  · constructor
    · intro l hl
      have := hwidth hl hu
      simp only [statusValue, hu, pace, Option.getD_some, Bool.false_eq_true, if_false]
      linarith
    · intro u' hu'
      obtain rfl : u = u' := Option.some.inj (hu.symm.trans hu')
      simpa [statusValue, pace, hu] using hdistance
  · exact ⟨by simp [hlower], by simp [hupper]⟩

/-- A value that moves no farther than to the end that it approaches stays within the bounds. -/
theorem Contains.add_mul (hx : b.Contains x) (hdistance : 0 ≤ distance)
    (hupper : 0 < rate → ∀ u, b.upper = some u → distance ≤ (u - x) / rate)
    (hlower : rate < 0 → ∀ l, b.lower = some l → distance ≤ (l - x) / rate) :
    b.Contains (x + distance * rate) := by
  constructor
  · intro l hl
    rcases lt_or_ge rate 0 with hrate | hrate
    · have hle := (le_div_iff_of_neg hrate).mp (hlower hrate l hl)
      linarith
    · have hmul := mul_nonneg hdistance hrate
      have hle := hx.1 l hl
      linarith
  · intro u hu
    rcases lt_or_ge 0 rate with hrate | hrate
    · have hle := (le_div_iff₀ hrate).mp (hupper hrate u hu)
      linarith
    · have hmul := mul_nonpos_of_nonneg_of_nonpos hdistance hrate
      have hle := hx.2 u hu
      linarith

end Bounds

/-- A point moved along a direction. -/
def advance {k : Nat} (z d : Vector Rat k) (distance : Rat) : Vector Rat k :=
  Vector.ofFn fun j => z.get j + distance * d.get j

@[simp] theorem get_advance {k : Nat} (z d : Vector Rat k) (distance : Rat) (j : Fin k) :
    (advance z d distance).get j = z.get j + distance * d.get j := get_ofFn _ j

namespace Tableau

variable {m n : Nat} {p : StandardForm m n} {t : Tableau m n} {z d : Vector Rat (n + m)}
variable {entering j : Fin (n + m)} {increase : Bool} {k : Fin m} {distance width bound : Rat}
variable {side : Side}

theorem holds_advance (hz : t.Holds z) (hd : t.Holds d) (distance : Rat) :
    t.Holds (advance z d distance) := by
  rw [holds_iff] at hz hd ⊢
  intro k
  simp only [get_advance, sum_mul_add_mul, hz k, hd k, mul_zero, add_zero]

theorem objective_advance (p : StandardForm m n) (z d : Vector Rat (n + m)) (distance : Rat) :
    p.objective (advance z d distance) = p.objective z + distance * p.objective d := by
  simp only [StandardForm.objective_eq_sum, get_advance, sum_mul_add_mul]

/-! ## The direction of a variable -/

/-- How fast each variable changes when one outside of the basis moves. -/
def direction (t : Tableau m n) (entering : Fin (n + m)) (increase : Bool) :
    Vector Rat (n + m) :=
  (List.finRange m).foldl (fun z k =>
    replaceAt z (t.basicVar k) (t.rate entering increase k))
    (replaceAt (Vector.replicate (n + m) 0) entering (pace increase))

theorem get_ray (t : Tableau m n) (entering : Fin (n + m)) (increase : Bool) (j : Fin n) :
    (t.ray entering increase).get j = (t.direction entering increase).get (Fin.castAdd m j) := by
  rw [ray, get_ofFn]
  rfl

theorem rate_eq (t : Tableau m n) (entering : Fin (n + m)) (increase : Bool) (k : Fin m) :
    t.rate entering increase k = -(t.coefficient k entering * pace increase) := by
  cases increase <;> simp [rate, pace]

theorem pace_ne_zero (increase : Bool) : pace increase ≠ 0 := by cases increase <;> simp [pace]

theorem rate_ne_zero (hcoefficient : t.coefficient k entering ≠ 0) :
    t.rate entering increase k ≠ 0 := by
  rw [rate_eq]
  exact neg_ne_zero.mpr (mul_ne_zero hcoefficient (pace_ne_zero increase))

namespace Solves

theorem get_direction_basicVar (h : t.Solves p) (entering : Fin (n + m)) (increase : Bool)
    (k : Fin m) : (t.direction entering increase).get (t.basicVar k) =
      t.rate entering increase k :=
  get_foldl_replaceAt h.basicVar_injective _ _ k

theorem get_direction_of_ne_basic (h : t.Solves p) (increase : Bool)
    (hj : t.statusOf j ≠ .basic) : (t.direction entering increase).get j =
      if entering = j then pace increase else 0 := by
  rw [direction, get_foldl_replaceAt_of_ne _ _ _ fun k _ => h.ne_basicVar hj k, get_replaceAt]
  congr 1
  exact Vector.getElem_replicate j.isLt

/-- A sum over the variables outside of the basis sees the moving variable only. -/
theorem sum_mul_direction (h : t.Solves p) (hentering : t.statusOf entering ≠ .basic)
    (g : Fin (n + m) → Rat) :
    ∑ j with t.statusOf j ≠ .basic, g j * (t.direction entering increase).get j =
      g entering * pace increase := by
  have hmem : entering ∈ ({j | t.statusOf j ≠ .basic} : Finset (Fin (n + m))) := by
    simpa using hentering
  rw [Finset.sum_eq_single_of_mem entering hmem]
  · rw [h.get_direction_of_ne_basic increase hentering, if_pos rfl]
  · intro j hj hne
    rw [h.get_direction_of_ne_basic increase (Finset.mem_filter.mp hj).2, if_neg hne.symm, mul_zero]

theorem holds_direction (h : t.Solves p) (increase : Bool)
    (hentering : t.statusOf entering ≠ .basic) :
    t.Holds (t.direction entering increase) := by
  rw [Tableau.holds_iff]
  intro k
  rw [h.sum_row, h.sum_mul_direction hentering, h.get_direction_basicVar, rate_eq, neg_add_cancel]

/-- The objective changes with the reduced cost of the moving variable. -/
theorem objective_direction (h : t.Solves p) (increase : Bool)
    (hentering : t.statusOf entering ≠ .basic) :
    p.objective (t.direction entering increase) =
      (reducedCosts p t).get entering * pace increase := by
  rw [objective_eq (h.holds_direction increase hentering), h.sum_eq, h.sum_mul_direction hentering]
  simp [h.reducedCost_basicVar]

end Solves

/-! ## Steps as moves -/

theorem statusOf_flip (t : Tableau m n) (entering j : Fin (n + m)) :
    (t.flip entering).statusOf j =
      if entering = j then (if t.statusOf entering = .lower then .upper else .lower)
      else t.statusOf j := by
  simp only [statusOf, flip, get_replaceAt]

theorem Valid.flip (h : t.Valid p) (hentering : t.statusOf entering ≠ .basic)
    (hmove : (p.boundsOf entering).canMove (t.statusOf entering) increase = true)
    (hwidth : (p.boundsOf entering).width? = some width) : (t.flip entering).Valid p where
  toSolves := by
    refine h.withStatus fun j => ?_
    have hflip := statusOf_flip t entering j
    rw [statusOf] at hflip
    rw [show (replaceAt t.status entering _).get j = _ from hflip]
    by_cases hj : entering = j
    · subst hj
      rw [if_pos rfl]
      split <;> simp [hentering]
    · rw [if_neg hj]
  fits j := by
    rw [statusOf_flip]
    split
    · next hj =>
      subst hj
      exact (Bounds.statusValue_flip (h.fits entering) hmove hwidth).1
    · exact h.fits j

/-- A flip is a move to the other end. -/
theorem values_flip (h : t.Valid p) (hentering : t.statusOf entering ≠ .basic)
    (hmove : (p.boundsOf entering).canMove (t.statusOf entering) increase = true)
    (hwidth : (p.boundsOf entering).width? = some width) :
    values p (t.flip entering) = advance (values p t) (t.direction entering increase) width := by
  have hholds : (t.flip entering).Holds
      (advance (values p t) (t.direction entering increase) width) :=
    holds_advance h.holds_values (h.holds_direction increase hentering) width
  refine ((h.flip hentering hmove hwidth).eq_values hholds fun j hj => ?_).symm
  have hflip := statusOf_flip t entering j
  by_cases hent : entering = j
  · subst hent
    rw [hflip, if_pos rfl, (Bounds.statusValue_flip (h.fits entering) hmove hwidth).2, get_advance,
      h.get_values_of_ne_basic hentering, h.get_direction_of_ne_basic increase hentering,
      if_pos rfl]
  · rw [if_neg hent] at hflip
    rw [hflip] at hj ⊢
    rw [get_advance, h.get_values_of_ne_basic hj, h.get_direction_of_ne_basic increase hj,
      if_neg hent, mul_zero, add_zero]

/-- A pivot is a move until the basic variable of the row is at its new end. -/
theorem values_pivot (h : t.Valid p) (hcoefficient : t.coefficient k entering ≠ 0)
    (hentering : t.statusOf entering ≠ .basic)
    (hbound : (p.boundsOf (t.basicVar k)).get side = some bound) (increase : Bool) :
    values p (t.pivot k entering side.status) =
      advance (values p t) (t.direction entering increase)
        ((bound - (values p t).get (t.basicVar k)) / t.rate entering increase k) := by
  have hvalid := h.pivot hcoefficient hentering (Option.isSome_of_eq_some hbound)
  have hholds := (holds_pivot hcoefficient side.status).mpr
    (holds_advance h.holds_values (h.holds_direction increase hentering)
      ((bound - (values p t).get (t.basicVar k)) / t.rate entering increase k))
  refine (hvalid.eq_values hholds fun j hj => ?_).symm
  rw [statusOf_pivot] at hj ⊢
  by_cases hbasic : t.basicVar k = j
  · subst hbasic
    rw [if_pos rfl, get_advance, h.get_direction_basicVar,
      div_mul_cancel₀ _ (rate_ne_zero hcoefficient), add_sub_cancel]
    exact (Bounds.statusValue_status hbound).symm
  · rw [if_neg hbasic] at hj ⊢
    by_cases hent : entering = j
    · exact absurd (if_pos hent) hj
    · rw [if_neg hent] at hj ⊢
      rw [get_advance, h.get_values_of_ne_basic hj, h.get_direction_of_ne_basic increase hj,
        if_neg hent, mul_zero, add_zero]

/-! ## Moves that keep all values within their bounds -/

/-- A valid tableau with all values within their bounds. -/
structure Primal (p : StandardForm m n) (t : Tableau m n) : Prop extends t.Valid p where
  /-- Each value is within its bounds. -/
  within : ∀ j, (p.boundsOf j).Contains ((values p t).get j)

theorem Primal.feasible (h : t.Primal p) : p.Feasible (values p t) :=
  ⟨(h.holds_iff _).mp h.holds_values, h.within⟩

/-- Outside of the basis there is nothing to violate if the ends do not cross. -/
theorem Valid.primal (h : t.Valid p) (hordered : ∀ j, (p.boundsOf j).Ordered)
    (hviolation : t.firstViolation? p = none) : t.Primal p where
  toValid := h
  within j := by
    by_cases hj : t.statusOf j = .basic
    · obtain ⟨k, rfl⟩ := (h.basic_iff j).mp hj
      exact contains_of_firstViolation?_eq_none hviolation k
    · rw [h.get_values_of_ne_basic hj]
      exact (hordered j).contains_statusValue hj (h.fits j)

/-- A block in a row is met after the way to the bound of its basic variable. -/
theorem blocks_row (side : Side) (hbound : (p.boundsOf (t.basicVar k)).get side = some bound)
    (hrate : side.Ahead (t.rate entering increase k)) :
    Blocks p t entering increase ⟨(bound - (values p t).get (t.basicVar k)) /
      t.rate entering increase k, t.basicVar k, some (k, side)⟩ :=
  .inr ⟨k, rowBlock?_eq_some.mpr ⟨side, bound, hbound, rfl, hrate⟩⟩

namespace Primal

/-- Up to the first block, a move keeps all values within their bounds. -/
theorem contains_advance (h : t.Primal p)
    (hmove : (p.boundsOf entering).canMove (t.statusOf entering) increase = true)
    (hdistance : 0 ≤ distance)
    (hblocks : ∀ b, Blocks p t entering increase b → distance ≤ b.distance) (j : Fin (n + m)) :
    (p.boundsOf j).Contains
      ((advance (values p t) (t.direction entering increase) distance).get j) := by
  rw [get_advance]
  by_cases hj : t.statusOf j = .basic
  · obtain ⟨k, rfl⟩ := (h.basic_iff j).mp hj
    rw [h.get_direction_basicVar]
    refine (h.within _).add_mul hdistance (fun hrate u hu => ?_) (fun hrate l hl => ?_)
    · exact hblocks _ (blocks_row .upper hu hrate)
    · exact hblocks _ (blocks_row .lower hl hrate)
  · rw [h.get_direction_of_ne_basic increase hj]
    by_cases hent : entering = j
    · subst hent
      rw [if_pos rfl, h.get_values_of_ne_basic hj]
      refine Bounds.contains_statusValue_add (h.fits entering) hmove hdistance fun width hwidth => ?_
      exact hblocks _ (.inl ⟨width, hwidth, rfl⟩)
    · rw [if_neg hent, mul_zero, add_zero]
      exact h.within j

/-- No block lies behind. -/
theorem distance_nonneg (h : t.Primal p)
    (hmove : (p.boundsOf entering).canMove (t.statusOf entering) increase = true)
    {b : Block m n} (hb : Blocks p t entering increase b) : 0 ≤ b.distance := by
  rcases hb with ⟨width, hwidth, rfl⟩ | ⟨k, hk⟩
  · exact (Bounds.width_pos_of_canMove (h.fits entering) hmove hwidth).le
  · obtain ⟨side, bound, hbound, rfl, hrate⟩ := rowBlock?_eq_some.mp hk
    have hwithin := h.within (t.basicVar k)
    cases side with
    | lower => exact div_nonneg_of_nonpos (sub_nonpos.mpr (hwithin.1 bound hbound)) hrate.le
    | upper => exact div_nonneg (sub_nonneg.mpr (hwithin.2 bound hbound)) hrate.le

end Primal

end Tableau

end CertifiedLp
