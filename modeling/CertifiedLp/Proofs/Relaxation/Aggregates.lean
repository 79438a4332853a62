import Mathlib
import CertifiedLp.Proofs.Extended
import CertifiedLp.Proofs.Relaxation.Entering

/-!
# Sums of objective contributions

The pseudo objective is the sum of what all columns contribute at their best bounds, and the loose
objective the part of it for the columns that are not active. Both are kept step by step, and every
operation keeps them exact: finite contributions are added up, and infinite ones are counted.
-/

namespace CertifiedLp

/-! ## Exact sums -/

/-- Where one summand is replaced, the sum changes by the difference. -/
theorem sum_add_of_replaced {α β : Type} [AddCommMonoid β] {s : Finset α} {f g : α → β} {k : α}
    (hk : k ∈ s) (h : ∀ i ∈ s, i ≠ k → g i = f i) :
    ∑ i ∈ s, g i + f k = ∑ i ∈ s, f i + g k := by
  classical
  have hrest : ∑ i ∈ s.erase k, g i = ∑ i ∈ s.erase k, f i :=
    Finset.sum_congr rfl fun i hi => h i (Finset.mem_of_mem_erase hi) (Finset.ne_of_mem_erase hi)
  rw [← Finset.add_sum_erase s g hk, ← Finset.add_sum_erase s f hk, hrest]
  ac_rfl

namespace ObjectiveSum

variable {s : ObjectiveSum} {n : Nat} {f g : ColumnRef → Option Extended} {c : ColumnRef}

/-- A sum of contributions is exact, one for each of the first columns: the finite ones are added up,
and the infinite ones are counted. -/
structure Totals (s : ObjectiveSum) (n : Nat) (f : ColumnRef → Option Extended) : Prop where
  finite : s.finite = .finite (∑ i ∈ Finset.range n, ((f ⟨i⟩).getD 0).rational)
  nrInfinite : s.nrInfinite = ∑ i ∈ Finset.range n, if f ⟨i⟩ = none then 1 else 0

/-- A contribution that is not infinite is a number. -/
def Proper (x : Option Extended) : Prop := ∀ y, x = some y → y.isFinite = true

theorem totals_empty (f : ColumnRef → Option Extended) : empty.Totals 0 f := ⟨rfl, rfl⟩

theorem Totals.congr (h : s.Totals n f) (hf : ∀ c, c.index < n → g c = f c) : s.Totals n g where
  finite := by
    rw [h.finite]
    exact congrArg _ (Finset.sum_congr rfl fun i hi => by rw [hf ⟨i⟩ (Finset.mem_range.mp hi)])
  nrInfinite := by
    rw [h.nrInfinite]
    exact Finset.sum_congr rfl fun i hi => by rw [hf ⟨i⟩ (Finset.mem_range.mp hi)]

/-- An infinite contribution was counted. -/
theorem Totals.nrInfinite_pos (h : s.Totals n f) (hc : c.index < n) (hnone : f c = none) :
    0 < s.nrInfinite := by
  have hle := Finset.single_le_sum (f := fun i => if f ⟨i⟩ = none then 1 else 0)
    (fun i _ => Nat.zero_le _) (Finset.mem_range.mpr hc)
  rw [h.nrInfinite]
  refine Nat.lt_of_lt_of_le Nat.one_pos (le_trans ?_ hle)
  rw [if_pos hnone]

theorem finite_add {y : Option Extended} {a : Rat} (hs : s.finite = .finite a) (hy : Proper y) :
    (s.add y).finite = .finite (a + (y.getD 0).rational) := by
  cases y with
  | none => simpa [add, Extended.zero_def] using hs
  | some v =>
    obtain ⟨q, rfl⟩ := Extended.isFinite_iff.mp (hy v rfl)
    simp [add, hs]

theorem finite_remove {x : Option Extended} {a : Rat} (hs : s.finite = .finite a) (hx : Proper x) :
    (s.remove x).finite = .finite (a - (x.getD 0).rational) := by
  cases x with
  | none => simpa [remove, Extended.zero_def] using hs
  | some v =>
    obtain ⟨q, rfl⟩ := Extended.isFinite_iff.mp (hx v rfl)
    simp [remove, hs]

theorem add_zero {a : Rat} (hs : s.finite = .finite a) : s.add (some 0) = s := by
  rcases s with ⟨x, n⟩
  cases hs
  simp [add, Extended.zero_def]

theorem remove_zero {a : Rat} (hs : s.finite = .finite a) : s.remove (some 0) = s := by
  rcases s with ⟨x, n⟩
  cases hs
  simp [remove, Extended.zero_def]

theorem nrInfinite_replace {x y : Option Extended} (h : x = none → 0 < s.nrInfinite) :
    (s.replace x y).nrInfinite + (if x = none then 1 else 0) =
      s.nrInfinite + if y = none then 1 else 0 := by
  cases x with
  | none =>
    have hpositive := h rfl
    cases y with
    | none => exact congrArg (· + 1) (Nat.sub_add_cancel hpositive)
    | some w => exact Nat.sub_add_cancel hpositive
  | some v => cases y <;> rfl

theorem proper_zero : Proper (some 0) := fun y hy => by
  cases hy
  rfl

/-- A contribution is replaced by another one. -/
theorem Totals.replace (h : s.Totals n f) (hc : c.index < n) (hold : Proper (f c))
    (hnew : Proper (g c)) (hf : ∀ d, d ≠ c → g d = f d) :
    (s.replace (f c) (g c)).Totals n g := by
  have hk : c.index ∈ Finset.range n := Finset.mem_range.mpr hc
  have hf (i : Nat) (hi : i ≠ c.index) : g ⟨i⟩ = f ⟨i⟩ :=
    hf ⟨i⟩ fun heq => hi (congrArg ColumnRef.index heq)
  refine ⟨?_, ?_⟩
  · rw [ObjectiveSum.replace, finite_add (finite_remove h.finite hold) hnew, Extended.finite_inj]
    have hsum := sum_add_of_replaced (f := fun i => ((f ⟨i⟩).getD 0).rational)
      (g := fun i => ((g ⟨i⟩).getD 0).rational) hk fun i _ hi => by rw [hf i hi]
    linarith
  · have hsum := sum_add_of_replaced (f := fun i => if f ⟨i⟩ = none then 1 else 0)
      (g := fun i => if g ⟨i⟩ = none then 1 else 0) hk fun i _ hi => by rw [hf i hi]
    have hcount := nrInfinite_replace (y := g c) (h.nrInfinite_pos hc)
    rw [h.nrInfinite, ← hsum] at hcount
    exact Nat.add_right_cancel hcount

/-- A contribution of zero is replaced. -/
theorem Totals.add (h : s.Totals n f) (hc : c.index < n) (hzero : f c = some 0)
    (hnew : Proper (g c)) (hf : ∀ d, d ≠ c → g d = f d) : (s.add (g c)).Totals n g := by
  have hreplaced := h.replace hc (hzero ▸ proper_zero) hnew hf
  rwa [ObjectiveSum.replace, hzero, remove_zero h.finite] at hreplaced

/-- A contribution is replaced by zero. -/
theorem Totals.remove (h : s.Totals n f) (hc : c.index < n) (hold : Proper (f c))
    (hzero : g c = some 0) (hf : ∀ d, d ≠ c → g d = f d) : (s.remove (f c)).Totals n g := by
  have hreplaced := h.replace hc hold (hzero ▸ proper_zero) hf
  rwa [ObjectiveSum.replace, hzero, add_zero (finite_remove h.finite hold)] at hreplaced

/-- There is one more column. -/
theorem Totals.push (h : s.Totals n f) (hnew : Proper (g ⟨n⟩))
    (hf : ∀ c, c.index < n → g c = f c) : (s.add (g ⟨n⟩)).Totals (n + 1) g where
  finite := by
    rw [finite_add (h.congr hf).finite hnew, Finset.sum_range_succ]
  nrInfinite := by
    rw [Finset.sum_range_succ, ← (h.congr hf).nrInfinite]
    cases g ⟨n⟩ <;> rfl

/-- Contributions of several columns are added that were left out. -/
theorem Totals.addAll {e : ColumnRef → Option Extended} {cs : List ColumnRef} (h : s.Totals n f)
    (hnodup : cs.Nodup) (hcs : ∀ c ∈ cs, c.index < n ∧ f c = some 0 ∧ Proper (e c)) :
    (cs.foldl (fun s c => s.add (e c)) s).Totals n fun c => if c ∈ cs then e c else f c := by
  induction cs generalizing s f with
  | nil => exact h.congr fun c _ => if_neg List.not_mem_nil
  | cons c cs ih =>
    obtain ⟨hc, hzero, hproper⟩ := hcs c List.mem_cons_self
    have hadded := h.add (g := fun d => if d = c then e c else f d) hc hzero
      (by rwa [if_pos rfl]) fun d hd => if_neg hd
    rw [if_pos rfl] at hadded
    refine (ih hadded (List.nodup_cons.mp hnodup).2 fun d hd => ?_).congr fun d _ => ?_
    · obtain ⟨hd', hzero', hproper'⟩ := hcs d (List.mem_cons_of_mem c hd)
      have hne : d ≠ c := fun heq => (List.nodup_cons.mp hnodup).1 (heq ▸ hd)
      exact ⟨hd', by rwa [if_neg hne], hproper'⟩
    · by_cases hdc : d = c <;> by_cases hd : d ∈ cs <;> simp [hdc, hd]

end ObjectiveSum

/-- The contribution of a column with a rational objective coefficient. -/
theorem ColumnSpec.Sensible.proper {spec : ColumnSpec} (h : spec.Sensible) :
    ObjectiveSum.Proper spec.bestObjective? := by
  intro y hy
  obtain ⟨q, hq⟩ := Extended.isFinite_iff.mp (by simpa [Extended.isInfinite] using h.objective)
  rw [ColumnSpec.bestObjective?] at hy
  split at hy
  · exact ObjectiveSum.proper_zero y hy
  · simp only at hy
    split at hy
    · next hbound =>
      obtain ⟨b, hb⟩ := Extended.isFinite_iff.mp hbound
      obtain rfl := Option.some.inj hy
      rw [hq, hb]
      rfl
    · cases hy

namespace Relaxation

open ObjectiveSum (Totals Proper)

variable {σ : Type} [Solver σ] {lp t : Relaxation σ} {c : ColumnRef} {spec : ColumnSpec}
variable {α : Type} {a : Action}

/-! ## The sums of a relaxation -/

/-- What a column contributes to the pseudo objective. -/
def contribution (lp : Relaxation σ) (c : ColumnRef) : Option Extended :=
  (lp.matrix.column c).spec.bestObjective?

/-- What a column contributes to the loose objective, which is nothing if it is in a given list. -/
def contributionOutside (lp : Relaxation σ) (columns : Array ColumnRef) (c : ColumnRef) :
    Option Extended := if c ∈ columns then some 0 else lp.contribution c

/-- What the columns say is sensible, and both sums are exact. -/
structure Aggregated (lp : Relaxation σ) : Prop where
  sensible : ∀ c, lp.matrix.Has (.column c) → (lp.matrix.column c).spec.Sensible
  pseudo : lp.pseudo.Totals lp.matrix.columns.size lp.contribution
  loose : lp.loose.Totals lp.matrix.columns.size (lp.contributionOutside lp.columns)

/-- No column is created, says something else, enters or leaves. -/
structure SameColumns (lp t : Relaxation σ) : Prop where
  nrColumns : t.matrix.columns.size = lp.matrix.columns.size
  spec : ∀ {c}, lp.matrix.Has (.column c) → (t.matrix.column c).spec = (lp.matrix.column c).spec
  columns : t.columns = lp.columns
  pseudo : t.pseudo = lp.pseudo
  loose : t.loose = lp.loose

theorem SameColumns.has (h : SameColumns lp t) :
    t.matrix.Has (.column c) ↔ lp.matrix.Has (.column c) := by
  rw [ConstraintMatrix.Has, h.nrColumns, ConstraintMatrix.Has]

instance : IsPreorder (Relaxation σ) SameColumns where
  refl _ := ⟨rfl, fun _ => rfl, rfl, rfl, rfl⟩
  trans _ _ _ h h' := ⟨h'.nrColumns.trans h.nrColumns,
    fun hc => (h'.spec (h.has.mpr hc)).trans (h.spec hc), h'.columns.trans h.columns,
    h'.pseudo.trans h.pseudo, h'.loose.trans h.loose⟩

theorem SameColumns.aggregated (h : SameColumns lp t) (hlp : lp.Aggregated) : t.Aggregated := by
  have hcontribution {c : ColumnRef} (hc : c.index < lp.matrix.columns.size) :
      t.contribution c = lp.contribution c := congrArg ColumnSpec.bestObjective? (h.spec hc)
  refine ⟨fun c hc => ?_, ?_, ?_⟩
  · rw [h.spec (h.has.mp hc)]
    exact hlp.sensible c (h.has.mp hc)
  · rw [h.pseudo, h.nrColumns]
    exact hlp.pseudo.congr fun c hc => hcontribution hc
  · rw [h.loose, h.nrColumns, h.columns]
    exact hlp.loose.congr fun c hc => by
      rw [contributionOutside, contributionOutside, hcontribution hc]

theorem Intact.sameColumns (h : Intact lp t) : SameColumns lp t :=
  ⟨h.nrColumns, fun hc => h.matrix.column hc, h.columns, h.pseudo, h.loose⟩

theorem RowsSteady.sameColumns {S : σ → σ → Prop} {scope : Scope}
    (h : RowsSteady S scope lp t) : SameColumns lp t := by
  obtain ⟨rows, h⟩ := h
  exact ⟨h.matrix.size, fun _ => congrArg (·.2.1) (h.matrix.column _), h.columns, h.pseudo, h.loose⟩

theorem Aggregated.proper (h : lp.Aggregated) (hc : lp.matrix.Has (.column c)) :
    Proper (lp.contribution c) := (h.sensible c hc).proper

/-! ## Columns -/

/-- A column says something else, and its contributions are replaced. -/
theorem Respecified.aggregated (h : Respecified c spec lp t) (hlp : lp.Coherent)
    (hsums : lp.Aggregated) (hc : lp.matrix.Has (.column c)) : t.Aggregated := by
  have hspec : spec.Sensible := h.sensible (hsums.sensible c hc)
  obtain ⟨b, hmatrix⟩ := h.matrix
  have hsize : t.matrix.columns.size = lp.matrix.columns.size := by
    rw [hmatrix]
    exact Array.size_modify
  have hself : (t.matrix.column c).spec = spec := by
    rw [hmatrix]
    exact congrArg Column.spec (ConstraintMatrix.column_modifyColumn_self hc _)
  have hother {d : ColumnRef} (hd : d ≠ c) :
      (t.matrix.column d).spec = (lp.matrix.column d).spec := by
    rw [hmatrix]
    exact congrArg Column.spec (ConstraintMatrix.column_modifyColumn_of_ne (Ne.symm hd) _)
  have hnew : t.contribution c = spec.bestObjective? := congrArg _ hself
  have hsame {d : ColumnRef} (hd : d ≠ c) : t.contribution d = lp.contribution d :=
    congrArg ColumnSpec.bestObjective? (hother hd)
  have hproper : Proper (t.contribution c) := hnew ▸ hspec.proper
  refine ⟨fun d hd => ?_, ?_, ?_⟩
  · by_cases hdc : d = c
    · rw [hdc, hself]
      exact hspec
    · rw [hother hdc]
      exact hsums.sensible d (by rwa [ConstraintMatrix.Has, hsize] at hd)
  · rw [h.pseudo, hsize, ← hnew]
    split
    · next heq =>
      refine hsums.pseudo.congr fun d _ => ?_
      by_cases hdc : d = c
      · rw [hdc, ← heq]
        rfl
      · exact hsame hdc
    · exact hsums.pseudo.replace hc (hsums.proper hc) hproper fun d hd => hsame hd
  · have hsameOutside {d : ColumnRef} (hd : d ≠ c) :
        t.contributionOutside lp.columns d = lp.contributionOutside lp.columns d := by
      rw [contributionOutside, contributionOutside, hsame hd]
    rw [h.loose, hsize, h.columns, ← hnew]
    split
    · next hskip =>
      refine hsums.loose.congr fun d _ => ?_
      by_cases hdc : d = c
      · subst hdc
        rw [contributionOutside, contributionOutside]
        split
        · rfl
        · next hloose =>
          refine (hskip.resolve_right fun hactive => hloose ?_).symm
          exact (hlp.isActive_column_iff d).mp hactive
      · exact hsameOutside hdc
    · next hreplace =>
      have hloose : c ∉ lp.columns := fun hmem =>
        hreplace (.inr ((hlp.isActive_column_iff c).mpr hmem))
      have hold : lp.contributionOutside lp.columns c = lp.contribution c := if_neg hloose
      have hreplaced := hsums.loose.replace (g := t.contributionOutside lp.columns) hc
        (hold ▸ hsums.proper hc) (by rwa [contributionOutside, if_neg hloose])
        fun d hd => hsameOutside hd
      rwa [hold, contributionOutside, if_neg hloose] at hreplaced

/-- The contribution of a new column is added to both sums. -/
theorem aggregated_createColumn (hlp : lp.Coherent) (hsums : lp.Aggregated) (problem : Problem)
    (x : VariableRef) :
    Ends (createColumn problem x) lp (fun _ t => t.Aggregated) fun _ t => t.Aggregated := by
  rw [ends_createColumn_iff]
  refine ⟨fun _ => hsums, fun _ => ⟨fun _ => hsums, fun hvalid => ?_⟩⟩
  have hspec : (problem.get x).spec.Sensible := by
    simp only [Bool.or_eq_true, not_or, Bool.not_eq_true', Bool.not_eq_false] at hvalid
    exact ⟨Bool.eq_false_iff.mpr hvalid.1, Interval.allows_of_isValid hvalid.2⟩
  set t : Relaxation σ := { lp with
    matrix := (lp.matrix.pushColumn (.create x ((problem.get x).kind == .integer)
      (problem.get x).spec)).1
    pseudo := lp.pseudo.add (problem.get x).spec.bestObjective?
    loose := lp.loose.add (problem.get x).spec.bestObjective? } with ht
  have hsize : t.matrix.columns.size = lp.matrix.columns.size + 1 := Array.size_push _
  have hcolumn (d : ColumnRef) : (t.matrix.column d).spec =
      if d.index = lp.matrix.columns.size then (problem.get x).spec
      else (lp.matrix.column d).spec := by
    rw [show t.matrix = _ from rfl, ConstraintMatrix.column_pushColumn]
    split <;> rfl
  have hnew : t.contribution ⟨lp.matrix.columns.size⟩ = (problem.get x).spec.bestObjective? := by
    rw [contribution, hcolumn, if_pos rfl]
  have hold {d : ColumnRef} (hd : d.index < lp.matrix.columns.size) :
      t.contribution d = lp.contribution d := by
    rw [contribution, hcolumn, if_neg (Nat.ne_of_lt hd), contribution]
  have houtside : (⟨lp.matrix.columns.size⟩ : ColumnRef) ∉ lp.columns := fun hmem =>
    Nat.lt_irrefl _ (hlp.has_of_mem hmem)
  have hproper := hspec.proper
  refine ⟨fun d hd => ?_, ?_, ?_⟩
  · rw [hcolumn]
    split
    · exact hspec
    · next hne =>
      rw [ConstraintMatrix.Has, hsize] at hd
      exact hsums.sensible d (by rw [ConstraintMatrix.Has]; omega)
  · rw [hsize, show t.pseudo = lp.pseudo.add (t.contribution ⟨lp.matrix.columns.size⟩) by rw [hnew]]
    exact hsums.pseudo.push (hnew ▸ hproper) fun d hd => hold hd
  · have hloose : t.contributionOutside lp.columns ⟨lp.matrix.columns.size⟩ =
        (problem.get x).spec.bestObjective? := by rw [contributionOutside, if_neg houtside, hnew]
    rw [hsize, show t.loose = lp.loose.add
      (t.contributionOutside lp.columns ⟨lp.matrix.columns.size⟩) by rw [hloose]]
    exact hsums.loose.push (hloose ▸ hproper) fun d hd => by
      rw [contributionOutside, contributionOutside, hold hd]

/-- A column that enters does not count as loose any more. -/
theorem aggregated_addColumn (hlp : lp.Coherent) (hsums : lp.Aggregated)
    (hc : lp.matrix.Has (.column c)) :
    Ends (addColumn c) lp (fun _ t => t.Aggregated) fun _ t => t.Aggregated := by
  refine ((ends_addColumn_steady (S := Whatever) (.edits ∅) c).and (ends_addColumn hlp hc)).mono
    (fun _ t ⟨⟨hinactive, hsteady⟩, _⟩ => ?_) fun _ t ⟨_, ht⟩ => ht ▸ hsums
  have houtside : c ∉ lp.columns := fun hmem =>
    Bool.eq_false_iff.mp hinactive ((hlp.isActive_column_iff c).mpr hmem)
  have hold : lp.contributionOutside lp.columns c = lp.contribution c := if_neg houtside
  have hremoved := hsums.loose.remove (g := lp.contributionOutside (lp.columns.push c)) hc
    (hold ▸ hsums.proper hc) (if_pos Array.mem_push_self) fun d hd => by
      simp [contributionOutside, Array.mem_push, hd]
  rw [hold] at hremoved
  exact hsteady.rowsSteady.sameColumns.aggregated
    ⟨hsums.sensible, hsums.pseudo, hremoved⟩

/-- In a list without repetitions, what is not at the end is at the front. -/
theorem mem_extract_iff {xs : Array ColumnRef} (hnodup : xs.toList.Nodup) (size : Nat) :
    c ∈ xs.extract 0 size ↔ c ∈ xs ∧ c ∉ backwards xs size := by
  have hsplit : xs.toList = (xs.extract 0 size).toList ++ (xs.extract size xs.size).toList := by
    rw [← Array.toList_append, Array.extract_append_extract, Nat.zero_min,
      Array.extract_eq_self_of_le (Nat.le_max_right _ _)]
  have hdisjoint := (List.nodup_append.mp (hsplit ▸ hnodup)).2.2
  rw [mem_backwards, ← Array.mem_toList_iff, ← Array.mem_toList_iff, ← Array.mem_toList_iff,
    show c ∈ xs.toList ↔ _ from hsplit ▸ List.mem_append]
  exact ⟨fun h => ⟨.inl h, fun h' => hdisjoint c h c h' rfl⟩, fun h => h.1.resolve_right h.2⟩

/-- Columns that leave count as loose again. -/
theorem aggregated_shrinkColumns (hlp : lp.Coherent) (hsums : lp.Aggregated) (size : Nat) :
    Ends (shrinkColumns size) lp (fun _ t => t.Aggregated) fun _ t => t.Aggregated := by
  have hsteady : Ends (shrinkColumns size) lp _ _ :=
    ends_shrinkColumns_steady (S := Whatever) (.edits ∅) size
  refine (hsteady.and (ends_shrinkColumns hlp size)).mono
    (fun _ t ⟨hsteady, _⟩ => ?_) fun _ _ h => h.2.elim
  have hadded := hsums.loose.addAll (e := lp.contribution)
    (nodup_backwards hlp.placed.columns.nodup size) fun c hc =>
      have hmem := mem_of_mem_backwards hc
      ⟨hlp.has_of_mem hmem, if_pos hmem, hsums.proper (hlp.has_of_mem hmem)⟩
  refine hsteady.rowsSteady.sameColumns.aggregated ⟨hsums.sensible, hsums.pseudo,
    hadded.congr fun c _ => ?_⟩
  have hmem := mem_extract_iff (c := c) hlp.placed.columns.nodup size
  have hcontribution : Relaxation.contribution { lp with
      columns := lp.columns.extract 0 size
      loose := (backwards lp.columns size).foldl
        (fun s c => s.add (lp.matrix.column c).spec.bestObjective?) lp.loose } c =
    lp.contribution c := rfl
  by_cases hleft : c ∈ backwards lp.columns size
  · simp [contributionOutside, hcontribution, hmem, hleft]
  · simp [contributionOutside, hcontribution, hmem, hleft]

/-! ## Everything else -/

/-- A coherent relaxation of which the sums are exact. -/
structure Summed (lp : Relaxation σ) : Prop where
  coherent : lp.Coherent
  sums : lp.Aggregated

theorem sameColumns_of_intact {x : RelaxationM σ α} (h : Along Intact x) : Along SameColumns x :=
  h.mono fun _ _ => Intact.sameColumns

theorem sameColumns_of_rowsSteady {x : RelaxationM σ α}
    (h : Along (RowsSteady Whatever (.edits Set.univ)) x) : Along SameColumns x :=
  h.mono fun _ _ => RowsSteady.sameColumns

theorem sameColumns_modify {g : Relaxation σ → Relaxation σ}
    (h : ∀ lp, (g lp).matrix = lp.matrix ∧ (g lp).columns = lp.columns ∧
      (g lp).pseudo = lp.pseudo ∧ (g lp).loose = lp.loose) :
    Along SameColumns (modify g : RelaxationM σ PUnit) := .modify fun lp =>
  ⟨by rw [(h lp).1], fun _ => by rw [(h lp).1], (h lp).2.1, (h lp).2.2.1, (h lp).2.2.2⟩

theorem sameColumns_setSettings (settings : Settings) :
    Along SameColumns (setSettings settings : RelaxationM σ Unit) :=
  .bind (sameColumns_of_intact (intact_onSolver _)) fun _ =>
    .bind (sameColumns_of_intact (intact_onSolver _)) fun _ =>
      sameColumns_modify fun _ => ⟨rfl, rfl, rfl, rfl⟩

theorem sameColumns_startDive (store : Bool) :
    Along SameColumns (startDive store : RelaxationM σ Unit) := by
  have hrest (snapshot : Solver.Snapshot σ) (flags : Flags) (stored : Bool) :
      Along SameColumns (modify fun lp : Relaxation σ => { lp with dive := some {
        snapshot, flags, stored
        nrRows := lp.rows.size, iterationLimit := lp.settings.iterationLimit, sideLog := #[] } } :
          RelaxationM σ Unit) := sameColumns_modify fun _ => ⟨rfl, rfl, rfl, rfl⟩
  refine .get fun lp => .ite .throw_bind <| .bind (sameColumns_of_intact intact_sync) fun _ => ?_
  refine .bind (along_askSolver _) fun snapshot =>
    .get fun lp' => ?_
  exact .ite (.bind (sameColumns_of_intact (intact_of_unedited unedited_storeSolution)) fun _ =>
    hrest _ _ _) (hrest _ _ _)

theorem RowRespecified.sameColumns {r : RowRef} {row : Row} {spec : RowSpec}
    (h : RowRespecified r row spec lp t) : SameColumns lp t := by
  obtain ⟨f, b, hmatrix, -⟩ := h.matrix
  exact ⟨by rw [hmatrix]; rfl, fun _ => by rw [hmatrix]; rfl, h.columns, h.pseudo, h.loose⟩

theorem admitsRowChanges_sameColumns :
    AdmitsRowChanges (SameColumns : Relaxation σ → Relaxation σ → Prop) where
  rowRespecified _ h := h.sameColumns

/-- An operation that keeps a relaxation coherent and its columns the same, keeps the sums exact. -/
theorem preserves_summed {R : ConstraintMatrix → ConstraintMatrix → Prop} {x : RelaxationM σ α}
    (hcarries : Along (Carries R) x) (hcolumns : Along SameColumns x) :
    Along (Preserves Summed) x := fun lp =>
  ((hcarries lp).and (hcolumns lp)).mono
    (fun _ _ h hlp => ⟨(h.1 hlp.coherent).coherent, h.2.aggregated hlp.sums⟩)
    fun _ _ h hlp => ⟨(h.1 hlp.coherent).coherent, h.2.aggregated hlp.sums⟩

theorem preserves_summed_of_quiet {x : RelaxationM σ α} (hquiet : Along Quiet x)
    (hcolumns : Along SameColumns x) : Along (Preserves Summed) x :=
  preserves_summed (along_of_quiet hquiet) hcolumns

/-- A column of a relaxation with exact sums says something else. -/
theorem Respecified.summed (h : Respecified c spec lp t) (hlp : lp.Summed)
    (hc : lp.matrix.Has (.column c)) :
    t.Summed ∧ t.matrix.columns.size = lp.matrix.columns.size := by
  have hcoherent := (h.quiet.carries hlp.coherent).coherent
  exact ⟨⟨hcoherent, h.aggregated hlp.coherent hlp.sums hc⟩, h.quiet.unmoved.stays.size_columns⟩

theorem Summed.ends_changeObjective (hlp : lp.Summed) (hc : lp.matrix.Has (.column c))
    (objective : Extended) :
    Ends (changeObjective c objective) lp
      (fun _ t => t.Summed ∧ t.matrix.columns.size = lp.matrix.columns.size)
      fun _ t => t.Summed ∧ t.matrix.columns.size = lp.matrix.columns.size := by
  refine (Relaxation.ends_changeObjective c objective).mono (fun _ t h => h.1.summed hlp hc) ?_
  rintro _ t rfl
  exact ⟨hlp, rfl⟩

theorem Summed.ends_changeBound (hlp : lp.Summed) (hc : lp.matrix.Has (.column c)) (side : Side)
    (value : Extended) :
    Ends (changeBound c side value) lp
      (fun _ t => t.Summed ∧ t.matrix.columns.size = lp.matrix.columns.size)
      fun _ t => t.Summed ∧ t.matrix.columns.size = lp.matrix.columns.size := by
  refine (Relaxation.ends_changeBound c side value).mono (fun _ t h => h.summed hlp hc) ?_
  rintro _ t rfl
  exact ⟨hlp, rfl⟩

/-- A column gets the objective and bounds of its variable. -/
theorem Summed.ends_reset (hlp : lp.Summed) (hc : lp.matrix.Has (.column c)) (problem : Problem) :
    Ends (do
      let spec := (problem.get (← getColumn c).origin).spec
      changeObjective c spec.objective
      changeBound c .lower spec.bounds.lower
      changeBound c .upper spec.bounds.upper
      pure (ForInStep.yield PUnit.unit) : RelaxationM σ (ForInStep PUnit)) lp
      (fun step t => step = .yield ⟨⟩ ∧ t.Summed ∧ t.matrix.columns.size = lp.matrix.columns.size)
      fun _ t => t.Summed := by
  have hhas {t : Relaxation σ} (ht : t.matrix.columns.size = lp.matrix.columns.size) :
      t.matrix.Has (.column c) := by
    rw [ConstraintMatrix.Has, ht]
    exact hc
  rw [Ends.bind_iff, ends_getColumn, Ends.bind_iff]
  refine (hlp.ends_changeObjective hc _).mono (fun _ t₁ h₁ => ?_) fun _ _ h => h.1
  rw [Ends.bind_iff]
  refine (h₁.1.ends_changeBound (hhas h₁.2) _ _).mono (fun _ t₂ h₂ => ?_) fun _ _ h => h.1
  have hsize := h₂.2.trans h₁.2
  rw [Ends.bind_iff]
  exact (h₂.1.ends_changeBound (hhas hsize) _ _).mono
    (fun _ t₃ h₃ => ⟨rfl, h₃.1, h₃.2.trans hsize⟩) fun _ _ h => h.1

theorem preserves_summed_undoDive (problem : Problem) (dive : Dive σ) :
    Along (Preserves Summed) (undoDive problem dive : RelaxationM σ Unit) := by
  have hsides : Along (Preserves Summed) (forIn dive.sideLog.toList.reverse PUnit.unit fun x _ => do
      let lp ← get
      if (lp.matrix.row? x.1).isSome then
        changeSide x.1 x.2.1 x.2.2
        pure (ForInStep.yield PUnit.unit)
      else pure (ForInStep.yield PUnit.unit) : RelaxationM σ PUnit) :=
    .forIn (fun x _ => .get fun lp => .ite (.bind (preserves_summed_of_quiet
      (admitsChanges_quiet.changeSide _ _ _) (admitsRowChanges_sameColumns.changeSide _ _ _))
        fun _ => .pure) .pure) _
  have hrest : Along (Preserves Summed) (do
      shrinkRows dive.nrRows
      sync
      onSolver (Solver.setInt .iterationLimit (iterationLimitCode dive.iterationLimit)) :
        RelaxationM σ Unit) := by
    refine .bind (preserves_summed (along_shrinkRows _) (sameColumns_of_rowsSteady
      (rowsSteady_shrinkRows True _))) fun _ => ?_
    refine .bind (preserves_summed along_sync (sameColumns_of_intact intact_sync)) fun _ => ?_
    exact preserves_summed_of_quiet (quiet_setInt _ _) (sameColumns_of_intact (intact_onSolver _))
  refine along_preserves fun lp hlp => ?_
  rw [undoDive, Ends.bind_iff, Ends.get_iff, Ends.bind_iff]
  refine (Ends.forIn_keeps (fun t => t.Summed ∧ t.matrix.columns.size = lp.matrix.columns.size)
    ⟨hlp, rfl⟩ fun c hc t ht => ?_).mono_ok fun _ t ht => ?_
  · have hhas : t.matrix.Has (.column c) := by
      rw [ConstraintMatrix.Has, ht.2]
      exact ConstraintMatrix.mem_columnRefs.mp hc
    exact (ht.1.ends_reset hhas problem).mono_ok
      fun _ u hu => ⟨hu.1, hu.2.1, hu.2.2.trans ht.2⟩
  · exact ((hsides.bind fun _ => hrest) t).mono (fun _ _ h => h ht.1) fun _ _ h => h ht.1

theorem preserves_summed_endDive (problem : Problem) :
    Along (Preserves Summed) (endDive problem : RelaxationM σ Unit) := by
  have hmodify {g : Relaxation σ → Relaxation σ}
      (h : ∀ lp, (g lp).matrix = lp.matrix ∧ (g lp).columns = lp.columns ∧
        (g lp).pseudo = lp.pseudo ∧ (g lp).loose = lp.loose)
      (hquiet : ∀ lp, (g lp).solver = lp.solver ∧ (g lp).rows = lp.rows) :
      Along (Preserves Summed) (modify g : RelaxationM σ PUnit) :=
    preserves_summed_of_quiet (.modify fun lp =>
      quiet_of_eq (h lp).1 (hquiet lp).1 (h lp).2.1 (hquiet lp).2) (sameColumns_modify h)
  have hrestore (snapshot : Solver.Snapshot σ) : Along (Preserves Summed)
      (tryCatch (onSolver (Solver.restore snapshot)) fun _ => pure () : RelaxationM σ Unit) :=
    .tryCatch (preserves_summed_of_quiet (quiet_onSolver fun hs =>
      Solver.along_of_resizes fun s => hs.restore s _) (sameColumns_of_intact (intact_onSolver _)))
      fun _ => .pure
  refine .get fun lp => ?_
  split
  · exact .throw
  next dive _ =>
  refine .bind (hmodify (fun _ => ⟨rfl, rfl, rfl, rfl⟩) fun _ => ⟨rfl, rfl⟩) fun _ => ?_
  refine .bind (.tryCatch (preserves_summed_undoDive problem dive) fun e => .bind
    (hmodify (fun _ => ⟨rfl, rfl, rfl, rfl⟩) fun _ => ⟨rfl, rfl⟩) fun _ => .throw) fun _ => ?_
  refine .bind (hmodify (fun _ => ⟨rfl, rfl, rfl, rfl⟩) fun _ => ⟨rfl, rfl⟩) fun _ =>
    .bind (hrestore _) fun _ => .ite ?_ (.bind ?_ fun _ => ?_)
  · exact preserves_summed_of_quiet quiet_restoreSolution
      (sameColumns_of_intact (intact_of_unedited unedited_restoreSolution))
  · exact preserves_summed_of_quiet quiet_markUnsolved (sameColumns_of_intact intact_markUnsolved)
  · exact hmodify (fun _ => ⟨rfl, rfl, rfl, rfl⟩) fun _ => ⟨rfl, rfl⟩

/-- Every action keeps the sums exact, whether it succeeds or not. -/
theorem Summed.ends_perform (hlp : lp.Summed) (ha : lp.Permits a) :
    Ends (perform a) lp (fun _ t => t.Aggregated) fun _ t => t.Aggregated := by
  have hsame {x : RelaxationM σ Unit} (hx : Along SameColumns x) :
      Ends x lp (fun _ t => t.Aggregated) fun _ t => t.Aggregated :=
    (hx lp).mono (fun _ _ h => h.aggregated hlp.sums) fun _ _ h => h.aggregated hlp.sums
  have hintact {x : RelaxationM σ Unit} (hx : Along Intact x) :
      Ends x lp (fun _ t => t.Aggregated) fun _ t => t.Aggregated :=
    hsame (sameColumns_of_intact hx)
  have hsteady {x : RelaxationM σ Unit} (hx : Along (Steady Whatever (.edits ∅)) x) :
      Ends x lp (fun _ t => t.Aggregated) fun _ t => t.Aggregated :=
    hintact (intact_of_steady hx)
  have hunedited {x : RelaxationM σ Unit} (hx : Along (Unedited Whatever) x) :
      Ends x lp (fun _ t => t.Aggregated) fun _ t => t.Aggregated :=
    hintact (intact_of_unedited hx)
  have hrows {x : RelaxationM σ Unit} (hx : Along (RowsSteady Whatever (.edits Set.univ)) x) :
      Ends x lp (fun _ t => t.Aggregated) fun _ t => t.Aggregated :=
    hsame (sameColumns_of_rowsSteady hx)
  cases a with
  | setSettings settings => exact hsame (sameColumns_setSettings settings)
  | setCutoff cutoff => exact hunedited (unedited_setCutoff cutoff)
  | createColumn problem x =>
    exact Ends.bind_iff.mpr (aggregated_createColumn hlp.coherent hlp.sums problem x)
  | createRow name spec => exact hintact (along_forgetful (intact_createRow name spec))
  | captureRow r => exact hsteady (steady_captureRow r)
  | releaseRow r => exact hrows (rowsSteady_of_steady (steady_releaseRow (Set.mem_univ r)))
  | lockRow r => exact hsteady (steady_lockRow r)
  | unlockRow r => exact hsteady (steady_unlockRow r)
  | addColumn c => exact aggregated_addColumn hlp.coherent hlp.sums (ha c List.mem_cons_self)
  | addRow r =>
    have hadd : Ends (addRow r) lp (fun _ t => Steady Whatever (.edits ∅) _ t)
      fun _ t => Steady Whatever (.edits ∅) lp t := ends_addRow_steady _ r
    exact hadd.mono (fun _ _ h => (RowsSteady.sameColumns ⟨_, h⟩).aggregated hlp.sums)
      fun _ _ h => h.rowsSteady.sameColumns.aggregated hlp.sums
  | shrinkColumns size => exact aggregated_shrinkColumns hlp.coherent hlp.sums size
  | shrinkRows size => exact hrows (rowsSteady_shrinkRows True size)
  | deleteRows mask => exact hrows (rowsSteady_deleteRows True mask)
  | clear =>
    refine Ends.bind_iff.mpr (((aggregated_shrinkColumns hlp.coherent hlp.sums 0).and
      (along_shrinkColumns 0 lp)).mono (fun _ t ht => ?_) fun _ _ h => h.1)
    exact (sameColumns_of_rowsSteady (rowsSteady_shrinkRows True 0) t).mono
      (fun _ _ h => h.aggregated ht.1) fun _ _ h => h.aggregated ht.1
  | changeObjective c objective =>
    exact (hlp.ends_changeObjective (ha c List.mem_cons_self) objective).mono
      (fun _ _ h => h.1.sums) fun _ _ h => h.1.sums
  | changeBound c side value =>
    exact (hlp.ends_changeBound (ha c List.mem_cons_self) side value).mono
      (fun _ _ h => h.1.sums) fun _ _ h => h.1.sums
  | changeSide r side value => exact hsame (admitsRowChanges_sameColumns.changeSide r side value)
  | changeConstant r constant => exact hsame (admitsRowChanges_sameColumns.changeConstant r constant)
  | coefficient c r => exact hsteady (along_forgetful (steady_coefficient c r))
  | edit c r e => exact hsteady (steady_edit c r e)
  | addCoefficientsInRow r coefficients =>
    exact hsteady (steady_addCoefficientsInRow r coefficients)
  | delayOrder r => exact hsteady (steady_delayOrder r)
  | forceOrder r => exact hsteady (steady_forceOrder r)
  | sync => exact hintact intact_sync
  | solve a => exact hintact (along_forgetful (intact_solve a))
  | solveAnd write a => exact hintact (along_forgetful (intact_solveAnd write a))
  | storeSolution => exact hunedited unedited_storeSolution
  | restoreSolution => exact hunedited unedited_restoreSolution
  | rowActivity r => exact hunedited (along_forgetful (unedited_rowActivity r))
  | rowFeasibility r => exact hunedited (along_forgetful (unedited_rowFeasibility r))
  | startDive store => exact hsame (sameColumns_startDive store)
  | setIterationLimit limit =>
    exact hsame (sameColumns_modify fun _ => ⟨rfl, rfl, rfl, rfl⟩)
  | endDive problem =>
    exact (preserves_summed_endDive problem lp).mono (fun _ _ h => (h hlp).sums)
      fun _ _ h => (h hlp).sums

/-! ## Runs -/

/-- The sums of a new relaxation are empty. -/
theorem summed_create {solver : σ} {settings : Settings} (h : create solver settings = .ok lp) :
    lp.Summed := by
  refine ⟨(records_create h).coherent, ?_⟩
  refine ((sameColumns_setSettings settings _).of_ok (of_create h).2).aggregated ⟨?_, ?_, ?_⟩
  · exact fun c hc => absurd hc (Nat.not_lt_zero _)
  · exact ObjectiveSum.totals_empty _
  · exact ObjectiveSum.totals_empty _

/-- Whatever is done to a relaxation, its sums stay exact. -/
theorem Summed.performAll (hlp : lp.Summed) {actions : List Action}
    (hactions : Throughout Permits lp actions) : (lp.performAll actions).Summed :=
  performAll_keeps (fun h ha => ⟨h.coherent.perform ha, (h.ends_perform ha).state⟩) hlp hactions

/-- Where the columns are the same, exact sums have the same values. -/
theorem Aggregated.values_eq (hlp : lp.Aggregated) (ht : t.Aggregated)
    (hsize : t.matrix.columns.size = lp.matrix.columns.size)
    (hspec : ∀ c, lp.matrix.Has (.column c) →
      (t.matrix.column c).spec = (lp.matrix.column c).spec) (hcolumns : t.columns = lp.columns) :
    t.pseudo = lp.pseudo ∧ t.loose = lp.loose := by
  have hunique {s s' : ObjectiveSum} {n : Nat} {f : ColumnRef → Option Extended}
      (h : s.Totals n f) (h' : s'.Totals n f) : s' = s := by
    rcases s with ⟨x, k⟩
    rcases s' with ⟨x', k'⟩
    rw [ObjectiveSum.mk.injEq]
    exact ⟨h'.finite.trans h.finite.symm, h'.nrInfinite.trans h.nrInfinite.symm⟩
  have hcontribution {c : ColumnRef} (hc : c.index < lp.matrix.columns.size) :
      t.contribution c = lp.contribution c := congrArg ColumnSpec.bestObjective? (hspec c hc)
  refine ⟨hunique hlp.pseudo ?_, hunique hlp.loose ?_⟩
  · exact (hsize ▸ ht.pseudo).congr fun c hc => (hcontribution hc).symm
  · refine (hcolumns ▸ hsize ▸ ht.loose).congr fun c hc => ?_
    rw [contributionOutside, contributionOutside, hcontribution hc]

end Relaxation

end CertifiedLp
