import Mathlib
import CertifiedLp.Proofs.Simplex.Values

/-!
# Selection rules

Each step of the simplex method makes choices: a variable outside of the basis that passes a test, a
basic variable that violates its bounds, the first thing that stops a move. This module says what
each choice guarantees, and what it means that there is nothing to choose.

The last two choices go through the rows and keep the best candidate. `firstBy?` is this loop; what
it ends with has the smallest key of all candidates.
-/

namespace CertifiedLp

section FirstBy

variable {ι β γ : Type} [LinearOrder γ]

/-- Go through a list, and keep the candidate that comes before those seen so far. -/
def firstBy? (before : β → β → Bool) (candidate? : ι → Option β) (start : Option β)
    (l : List ι) : Option β :=
  l.foldl (fun best k =>
    match candidate? k with
    | none => best
    | some b =>
      match best with
      | some c => if before b c then some b else best
      | none => some b) start

variable {before : β → β → Bool} {candidate? : ι → Option β} {start : Option β} {l : List ι}
variable {b : β}

/-- The first candidate is a candidate, and no other has a smaller key. -/
theorem firstBy?_eq_some (key : β → γ) (hbefore : ∀ b c, before b c = true ↔ key b < key c)
    (h : firstBy? before candidate? start l = some b) :
    (start = some b ∨ ∃ k ∈ l, candidate? k = some b) ∧
      ∀ c, (start = some c ∨ ∃ k ∈ l, candidate? k = some c) → key b ≤ key c := by
  induction l generalizing start with
  | nil =>
    have hstart : start = some b := h
    refine ⟨.inl hstart, fun c hc => ?_⟩
    rcases hc with hc | ⟨k, hk, -⟩
    · rw [Option.some.inj (hstart.symm.trans hc)]
    · exact absurd hk List.not_mem_nil
  | cons k l ih =>
    rw [firstBy?, List.foldl_cons] at h
    obtain ⟨hmem, hleast⟩ := ih h
    -- What the loop keeps after the first element is no larger than anything seen before.
    cases hk : candidate? k with
    | none =>
      simp only [hk] at hmem hleast
      simp only [List.mem_cons, exists_eq_or_imp, hk, reduceCtorEq, false_or]
      exact ⟨hmem, hleast⟩
    | some d =>
      simp only [hk] at hmem hleast
      simp only [List.mem_cons, exists_eq_or_imp, hk, Option.some.injEq]
      cases start with
      | none =>
        simp only [Option.some.injEq] at hmem hleast
        simp only [reduceCtorEq, false_or]
        exact ⟨hmem, hleast⟩
      | some c =>
        simp only [Option.some.injEq]
        by_cases hdc : before d c = true
        · simp only [hdc, if_true, Option.some.injEq] at hmem hleast
          refine ⟨.inr hmem, fun a ha => ?_⟩
          rcases ha with rfl | ha
          · exact (hleast d (.inl rfl)).trans ((hbefore _ _).mp hdc).le
          · exact hleast a ha
        · simp only [hdc, Bool.false_eq_true, if_false, Option.some.injEq] at hmem hleast
          have hcd : key c ≤ key d := not_lt.mp fun hlt => hdc ((hbefore _ _).mpr hlt)
          refine ⟨hmem.imp_right .inr, fun a ha => ?_⟩
          rcases ha with rfl | rfl | ha
          · exact hleast _ (.inl rfl)
          · exact (hleast c (.inl rfl)).trans hcd
          · exact hleast a (.inr ha)

/-- Only without candidates there is no first one. -/
theorem firstBy?_eq_none (h : firstBy? before candidate? start l = none) :
    start = none ∧ ∀ k ∈ l, candidate? k = none := by
  induction l generalizing start with
  | nil => exact ⟨h, fun k hk => absurd hk List.not_mem_nil⟩
  | cons k l ih =>
    rw [firstBy?, List.foldl_cons] at h
    obtain ⟨hkept, hrest⟩ := ih h
    cases hk : candidate? k with
    | none =>
      simp only [hk] at hkept
      exact ⟨hkept, List.forall_mem_cons.mpr ⟨hk, hrest⟩⟩
    | some d =>
      simp only [hk] at hkept
      split at hkept
      · split at hkept <;> cases hkept
      · cases hkept

end FirstBy

/-! ## Violated bounds -/

/-- A value is beyond an end of its bounds. -/
def Side.Beyond (side : Side) (bound x : Rat) : Prop :=
  match side with
  | .lower => x < bound
  | .upper => bound < x

/-- The sign of the multipliers that an end supports. -/
def Side.sign : Side → Rat
  | .lower => 1
  | .upper => -1

/-- The end supports its sign, and beyond it the product is smaller. -/
theorem Side.Beyond.supports_sign {b : Bounds} {side : Side} {bound x : Rat}
    (h : side.Beyond bound x) (hbound : b.get side = some bound) :
    b.Supports bound side.sign ∧ side.sign * x < side.sign * bound := by
  cases side with
  | lower =>
    exact ⟨Bounds.supports_lower (by decide) hbound, by simpa [sign, Beyond] using h⟩
  | upper =>
    exact ⟨Bounds.supports_upper (by decide) hbound, by simpa [sign, Beyond] using h⟩

/-- An end lies ahead of a value that changes at a rate. -/
def Side.Ahead (side : Side) (rate : Rat) : Prop :=
  match side with
  | .lower => rate < 0
  | .upper => 0 < rate

/-- An end that supports a multiplier is ahead of a value that changes such that the product gets
smaller. -/
theorem Bounds.Supports.exists_ahead {b : Bounds} {e w rate : Rat} (h : b.Supports e w)
    (hneg : w * rate < 0) : ∃ side : Side, b.get side = some e ∧ side.Ahead rate := by
  rcases mul_neg_iff.mp hneg with ⟨hw, hrate⟩ | ⟨hw, hrate⟩
  · exact ⟨.lower, h.1 hw, hrate⟩
  · exact ⟨.upper, h.2 hw, hrate⟩

/-- What is ahead depends on the sign of the rate only. -/
theorem Side.Ahead.of_same_sign {side : Side} {w rate rate' : Rat} (h : side.Ahead rate)
    (hneg : w * rate < 0) (hneg' : w * rate' < 0) : side.Ahead rate' := by
  cases side with
  | lower =>
    have hw : 0 < w := pos_of_mul_neg_left hneg (le_of_lt h)
    exact neg_of_mul_neg_right hneg' hw.le
  | upper =>
    have hw : w < 0 := neg_of_mul_neg_left hneg (le_of_lt h)
    exact pos_of_mul_neg_right hneg' hw.le

theorem Bounds.violated?_eq_some {b : Bounds} {x : Rat} {side : Side}
    (h : b.violated? x = some side) : ∃ bound, b.get side = some bound ∧ side.Beyond bound x := by
  rw [violated?] at h
  split at h
  · next hlower =>
    obtain rfl := Option.some.inj h
    obtain ⟨l, hl, hlt⟩ := (Option.any_eq_true _ _).mp hlower
    exact ⟨l, hl, by simpa [Side.Beyond] using hlt⟩
  · split at h
    · next hupper =>
      obtain rfl := Option.some.inj h
      obtain ⟨u, hu, hlt⟩ := (Option.any_eq_true _ _).mp hupper
      exact ⟨u, hu, by simpa [Side.Beyond] using hlt⟩
    · cases h

namespace Tableau

variable {m n : Nat} {p : StandardForm m n} {t : Tableau m n}

theorem firstNonbasic?_eq_some {test : Fin (n + m) → Bool} {j : Fin (n + m)}
    (h : t.firstNonbasic? test = some j) : t.statusOf j ≠ .basic ∧ test j = true := by
  have htest := List.find?_some h
  rwa [Bool.and_eq_true, decide_eq_true_eq] at htest

theorem firstNonbasic?_eq_none {test : Fin (n + m) → Bool} (h : t.firstNonbasic? test = none)
    {j : Fin (n + m)} (hj : t.statusOf j ≠ .basic) : test j = false := by
  have htest := List.find?_eq_none.mp h j (List.mem_finRange j)
  simpa [hj] using htest

/-- The first variable that passes a test has none before it that does. -/
theorem firstNonbasic?_eq_false_of_lt {test : Fin (n + m) → Bool} {i j : Fin (n + m)}
    (h : t.firstNonbasic? test = some j) (hlt : i < j) (hi : t.statusOf i ≠ .basic) :
    test i = false := by
  obtain ⟨-, k, hk, hkj, hbefore⟩ := List.find?_eq_some_iff_getElem.mp h
  rw [List.getElem_finRange] at hkj
  have hik : i.val < k := by
    have hval := congrArg Fin.val hkj
    simp only [Fin.val_cast] at hval
    have := Fin.lt_def.mp hlt
    omega
  have htest := hbefore i.val hik
  rw [List.getElem_finRange] at htest
  simpa [hi] using htest

theorem firstViolation?_eq (p : StandardForm m n) (t : Tableau m n) :
    t.firstViolation? p =
      firstBy? (fun b c : Violation m => t.basicVar b.row < t.basicVar c.row)
        (fun k => ((p.boundsOf (t.basicVar k)).violated?
          ((values p t).get (t.basicVar k))).map fun side => ⟨k, side⟩)
        none (List.finRange m) := by
  rw [firstViolation?, firstBy?]
  congr 1
  funext best k
  cases (p.boundsOf (t.basicVar k)).violated? ((values p t).get (t.basicVar k)) with
  | none => rfl
  | some side => cases best <;> simp

/-- The basic variable that is chosen to leave violates its bounds. -/
theorem violated?_of_firstViolation? {v : Violation m} (h : t.firstViolation? p = some v) :
    (p.boundsOf (t.basicVar v.row)).violated? ((values p t).get (t.basicVar v.row)) =
      some v.side := by
  rw [firstViolation?_eq] at h
  have hbest := firstBy?_eq_some (fun v : Violation m => t.basicVar v.row) (by simp) h
  obtain ⟨k, -, hk⟩ := hbest.1.resolve_left (by simp)
  obtain ⟨side, hside, rfl⟩ := Option.map_eq_some_iff.mp hk
  exact hside

/-- Without a violation all basic variables are within their bounds. -/
theorem contains_of_firstViolation?_eq_none (h : t.firstViolation? p = none) (k : Fin m) :
    (p.boundsOf (t.basicVar k)).Contains ((values p t).get (t.basicVar k)) := by
  rw [firstViolation?_eq] at h
  have hk := (firstBy?_eq_none h).2 k (List.mem_finRange k)
  exact Bounds.violated?_eq_none_iff.mp (Option.map_eq_none_iff.mp hk)

/-- The basic variables before the one that is chosen to leave are within their bounds. -/
theorem contains_of_lt_firstViolation? {v : Violation m} (h : t.firstViolation? p = some v)
    {k : Fin m} (hlt : t.basicVar k < t.basicVar v.row) :
    (p.boundsOf (t.basicVar k)).Contains ((values p t).get (t.basicVar k)) := by
  rw [firstViolation?_eq] at h
  have hleast := (firstBy?_eq_some (fun v : Violation m => t.basicVar v.row) (by simp) h).2
  rw [← Bounds.violated?_eq_none_iff]
  by_contra hviolated
  obtain ⟨side, hside⟩ := Option.ne_none_iff_exists'.mp hviolated
  have hle := hleast ⟨k, side⟩ (.inr ⟨k, List.mem_finRange k, by rw [hside, Option.map_some]⟩)
  exact hle.not_gt hlt

/-- The coefficients of the row of a violation, with the sign for which the product with the
violating value is smaller than at the violated end. -/
def weight (t : Tableau m n) (v : Violation m) (j : Fin (n + m)) : Rat :=
  v.side.sign * t.coefficient v.row j

theorem Solves.weight_basicVar (h : t.Solves p) (v : Violation m) (k : Fin m) :
    t.weight v (t.basicVar k) = if v.row = k then v.side.sign else 0 := by
  rw [weight, h.coefficient_basicVar, mul_ite, mul_one, mul_zero]

theorem sum_weight_mul {z : Vector Rat (n + m)} (hz : t.Holds z) (v : Violation m) :
    ∑ j, t.weight v j * z.get j = 0 := by
  have hrow := Tableau.holds_iff.mp hz v.row
  simp only [weight, mul_assoc, ← Finset.mul_sum, hrow, mul_zero]

/-- A variable that repairs a violation may move in a direction in which its part of the row
decreases. -/
theorem repairs_iff {v : Violation m} {j : Fin (n + m)} : t.repairs p v j = true ↔
    (t.weight v j < 0 ∧ t.canIncrease p j = true) ∨
      (0 < t.weight v j ∧ t.canDecrease p j = true) := by
  rw [repairs, weight]
  cases v.side <;> simp [Side.sign]

/-- A variable that does not repair a violation is stuck in the direction that would. -/
theorem stuck_of_repairs_eq_false {v : Violation m} {j : Fin (n + m)}
    (h : t.repairs p v j = false) : (p.boundsOf j).Stuck (t.statusOf j) (t.weight v j) := by
  have htest : ¬t.repairs p v j = true := Bool.eq_false_iff.mp h
  rw [repairs_iff, not_or, not_and, not_and] at htest
  exact ⟨fun hneg => Bool.eq_false_iff.mpr (htest.1 hneg),
    fun hpos => Bool.eq_false_iff.mpr (htest.2 hpos)⟩

theorem coefficient_ne_zero_of_repairs {v : Violation m} {j : Fin (n + m)}
    (h : t.repairs p v j = true) : t.coefficient v.row j ≠ 0 := by
  intro hzero
  simp [repairs_iff, weight, hzero] at h

/-! ## Blocks -/

section Blocks

variable {z : Vector Rat (n + m)} {entering : Fin (n + m)} {increase : Bool} {k : Fin m}
variable {b c : Block m n}

/-- A move of a variable meets an end there: its own other end, or the one that the basic variable
of a row approaches. -/
def Blocks (p : StandardForm m n) (t : Tableau m n) (entering : Fin (n + m)) (increase : Bool)
    (b : Block m n) : Prop :=
  (∃ width, (p.boundsOf entering).width? = some width ∧ b = ⟨width, entering, none⟩) ∨
    ∃ k, t.rowBlock? p (values p t) entering increase k = some b

theorem rowBlock?_eq_some : t.rowBlock? p z entering increase k = some b ↔
    ∃ side bound, (p.boundsOf (t.basicVar k)).get side = some bound ∧
      b = ⟨(bound - z.get (t.basicVar k)) / t.rate entering increase k, t.basicVar k,
        some (k, side)⟩ ∧
      side.Ahead (t.rate entering increase k) := by
  rw [rowBlock?]
  dsimp only
  constructor
  · intro h
    split at h
    · next hrate =>
      obtain ⟨bound, hbound, rfl⟩ := Option.map_eq_some_iff.mp h
      exact ⟨.upper, bound, hbound, rfl, hrate⟩
    · split at h
      · next hrate =>
        obtain ⟨bound, hbound, rfl⟩ := Option.map_eq_some_iff.mp h
        exact ⟨.lower, bound, hbound, rfl, hrate⟩
      · cases h
  · rintro ⟨side, bound, hbound, rfl, hrate⟩
    cases side with
    | lower =>
      have hneg : t.rate entering increase k < 0 := hrate
      rw [if_neg hneg.not_gt, if_pos hneg, hbound, Option.map_some]
    | upper =>
      have hpos : 0 < t.rate entering increase k := hrate
      rw [if_pos hpos, hbound, Option.map_some]

theorem precedes_iff (b c : Block m n) : b.precedes c = true ↔
    toLex (b.distance, b.blocking) < toLex (c.distance, c.blocking) := by
  rw [Prod.Lex.toLex_lt_toLex]
  simp [Block.precedes]

theorem firstBlock?_eq (p : StandardForm m n) (t : Tableau m n) (entering : Fin (n + m))
    (increase : Bool) : t.firstBlock? p entering increase =
      firstBy? Block.precedes (t.rowBlock? p (values p t) entering increase)
        ((p.boundsOf entering).width?.map fun width => ⟨width, entering, none⟩)
        (List.finRange m) := by
  rw [firstBlock?, firstBy?]
  congr 1
  funext best k
  cases t.rowBlock? p (values p t) entering increase k with
  | none => rfl
  | some b => cases best <;> rfl

theorem blocks_iff : Blocks p t entering increase b ↔
    ((p.boundsOf entering).width?.map fun width => (⟨width, entering, none⟩ : Block m n)) =
        some b ∨
      ∃ k ∈ List.finRange m, t.rowBlock? p (values p t) entering increase k = some b := by
  simp only [Blocks, Option.map_eq_some_iff, List.mem_finRange, true_and, eq_comm (a := b)]

/-- The first block of a move is the nearest one, and of those the one with the smallest
variable. -/
theorem toLex_le_of_firstBlock? (h : t.firstBlock? p entering increase = some b) :
    Blocks p t entering increase b ∧ ∀ c, Blocks p t entering increase c →
      toLex (b.distance, b.blocking) ≤ toLex (c.distance, c.blocking) := by
  rw [firstBlock?_eq] at h
  obtain ⟨hmem, hleast⟩ :=
    firstBy?_eq_some (fun b : Block m n => toLex (b.distance, b.blocking)) precedes_iff h
  exact ⟨blocks_iff.mpr hmem, fun c hc => hleast c (blocks_iff.mp hc)⟩

theorem blocks_of_firstBlock? (h : t.firstBlock? p entering increase = some b) :
    Blocks p t entering increase b ∧
      ∀ c, Blocks p t entering increase c → b.distance ≤ c.distance := by
  obtain ⟨hblocks, hleast⟩ := toLex_le_of_firstBlock? h
  refine ⟨hblocks, fun c hc => ?_⟩
  rcases Prod.Lex.toLex_le_toLex.mp (hleast c hc) with hlt | heq
  · exact hlt.le
  · exact heq.1.le

theorem not_blocks_of_firstBlock?_eq_none (h : t.firstBlock? p entering increase = none)
    (b : Block m n) : ¬ Blocks p t entering increase b := by
  rw [firstBlock?_eq] at h
  obtain ⟨hown, hrows⟩ := firstBy?_eq_none h
  rw [blocks_iff, hown]
  rintro (hb | ⟨k, hk, hb⟩)
  · cases hb
  · rw [hrows k hk] at hb
    cases hb

end Blocks

end Tableau

end CertifiedLp
