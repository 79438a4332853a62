import CertifiedLp.Proofs.Simplex.Contents

/-!
# What a refused call leaves

The calls that add columns or rows or change objective coefficients check each item just before they
store it. If they refuse an item, then the ones before it are stored already. The call ends there,
so that it does not forget the last result either, although that belongs to another linear program.
All other calls check what they are given before they store any of it: if they fail, then nothing
has changed.
-/

namespace CertifiedLp

section Storing

variable {σ ε α β : Type} {check : α → Except ε β} {store : α → β → σ → σ}
variable {xs : List α} {s t : σ} {e : ε}

/-- Items are checked and stored one by one, until one of them is refused. -/
def storeAll (check : α → Except ε β) (store : α → β → σ → σ) (xs : List α) (s : σ) :
    Except ε σ :=
  xs.foldlM (fun s x => (check x).map (store x · s)) s

/-- An item was refused, and the items before it were stored. -/
def StopsAt (check : α → Except ε β) (store : α → β → σ → σ) (xs : List α) (s : σ) (e : ε)
    (t : σ) : Prop :=
  ∃ done x rest, xs = done ++ x :: rest ∧ storeAll check store done s = .ok t ∧ check x = .error e

theorem storeAll_concat_eq_ok {x : α} :
    storeAll check store (xs ++ [x]) s = .ok t ↔
      ∃ u b, storeAll check store xs s = .ok u ∧ check x = .ok b ∧ store x b u = t := by
  have hlast : storeAll check store (xs ++ [x]) s =
      (storeAll check store xs s).bind fun u => (check x).map (store x · u) := by
    simp only [storeAll, List.foldlM_append, List.foldlM_cons, List.foldlM_nil, bind_pure]
    rfl
  rw [hlast]
  cases storeAll check store xs s with
  | error e => simp [Except.bind]
  | ok u => cases check x <;> simp [Except.bind, Except.map]

/-- What every item keeps is kept. -/
theorem storeAll_keeps {R : List α → σ → Prop} (h : R [] s)
    (hstep : ∀ done x rest b t, xs = done ++ x :: rest → R done t → check x = .ok b →
      R (done ++ [x]) (store x b t)) (hrun : storeAll check store xs s = .ok t) : R xs t := by
  suffices hall : ∀ done rest, xs = done ++ rest → ∀ t, storeAll check store done s = .ok t →
      R done t from hall xs [] (List.append_nil xs).symm t hrun
  intro done
  induction done using List.reverseRecOn with
  | nil =>
    rintro rest - t ht
    cases ht
    exact h
  | append_singleton done x ih =>
    intro rest hxs t ht
    obtain ⟨u, b, hu, hb, rfl⟩ := storeAll_concat_eq_ok.mp ht
    rw [List.append_assoc, List.singleton_append] at hxs
    exact hstep done x rest b u hxs (ih (x :: rest) hxs u hu) hb

/-- The items are the numbers below a bound, so that the part that is done has a length only. -/
theorem storeAll_range {check : Nat → Except ε β} {store : Nat → β → σ → σ} {n : Nat}
    {I : Nat → σ → Prop} (h : I 0 s)
    (hstep : ∀ k b t, I k t → check k = .ok b → I (k + 1) (store k b t))
    (hrun : storeAll check store (List.range n) s = .ok t) : I n t := by
  have hall := storeAll_keeps (R := fun done => I done.length) h
    (fun done k rest b u hrange hu hb => ?_) hrun
  · rwa [List.length_range] at hall
  · obtain rfl : k = done.length := by
      have hget : (List.range n)[done.length]? = some k := by simp [hrange]
      simpa using (List.getElem?_eq_some_iff.mp hget).2.symm
    rw [List.length_append]
    exact hstep _ b u hu hb

/-- The number that was refused is the first one that was not stored. -/
theorem StopsAt.exists_lt {check : Nat → Except ε β} {store : Nat → β → σ → σ} {n : Nat}
    (h : StopsAt check store (List.range n) s e t) :
    ∃ k < n, storeAll check store (List.range k) s = .ok t ∧ check k = .error e := by
  obtain ⟨done, k, rest, hrange, hdone, hk⟩ := h
  have hlength : done.length < n := by
    have hsize := congrArg List.length hrange
    simp only [List.length_range, List.length_append, List.length_cons] at hsize
    omega
  have hprefix : List.range done.length = done := by
    have htake := congrArg (List.take done.length) hrange
    rwa [List.take_left, List.take_range, Nat.min_eq_left hlength.le] at htake
  have hget : done.length = k := by
    have hat := congrArg (·[done.length]?) hrange
    simpa [List.getElem?_range hlength] using hat
  exact ⟨k, hget ▸ hlength, by rw [← hget, hprefix, hdone], hk⟩

/-- Everything is stored exactly if every item is accepted. -/
theorem exists_storeAll_iff :
    (∃ t, storeAll check store xs s = .ok t) ↔ ∀ x ∈ xs, ∃ b, check x = .ok b := by
  induction xs using List.reverseRecOn with
  | nil => exact ⟨fun _ _ h => absurd h List.not_mem_nil, fun _ => ⟨s, rfl⟩⟩
  | append_singleton xs x ih =>
    simp only [storeAll_concat_eq_ok, List.mem_append, List.mem_singleton, or_imp, forall_and,
      forall_eq, ← ih]
    exact ⟨fun ⟨_, u, b, hu, hb, _⟩ => ⟨⟨u, hu⟩, b, hb⟩,
      fun ⟨⟨u, hu⟩, b, hb⟩ => ⟨_, u, b, hu, hb, rfl⟩⟩

variable (check store) in
/-- A loop whose body checks an item and then stores it. -/
theorem Ends.forIn_storeAll {body : α → PUnit → ExceptT ε (StateM σ) (ForInStep PUnit)}
    (hstep : ∀ x t, Ends (body x ⟨⟩) t
      (fun step u => step = .yield ⟨⟩ ∧ ∃ b, check x = .ok b ∧ u = store x b t)
      fun e u => check x = .error e ∧ u = t) (s : σ) :
    Ends (forIn xs ⟨⟩ body) s (fun _ t => storeAll check store xs s = .ok t)
      (StopsAt check store xs s) := by
  refine Ends.forIn_list (fun done t => storeAll check store done s = .ok t) rfl ?_
  intro done x rest t hxs ht
  refine (hstep x t).mono ?_ ?_
  · rintro step u ⟨rfl, b, hb, rfl⟩
    exact ⟨rfl, storeAll_concat_eq_ok.mpr ⟨t, b, ht, hb, rfl⟩⟩
  · rintro e u ⟨he, rfl⟩
    exact ⟨done, x, rest, hxs, ht, he⟩

end Storing

namespace Simplex

variable {s t : Simplex} {e : SolverError}

/-! ## Columns -/

/-- Check a column of a batch: its objective coefficient, and then its coefficients. -/
def checkColumn (batch : ColumnBatch) (nrRows k : Nat) : Except SolverError (Rat × Array Rat) := do
  let objective ← toCoefficient (batch.objective.getD k 0)
  let coefficients ← toDense nrRows (batch.entries.items k)
  return (objective, coefficients)

/-- Store a column of a batch that was accepted. -/
def storeColumn (batch : ColumnBatch) (k : Nat) (accepted : Rat × Array Rat) : Simplex → Simplex :=
  pushColumn accepted.1 (toBounds (batch.lower.getD k 0) (batch.upper.getD k 0)) accepted.2

/-- Columns are added one by one. The last result is forgotten at the end only. -/
theorem ends_addColumns_stored (batch : ColumnBatch) (s : Simplex) :
    Ends (addColumns batch) s
      (fun _ t => ∃ u, storeAll (checkColumn batch s.nrRows) (storeColumn batch)
        (List.range batch.size) s = .ok u ∧ t = { u with result := none })
      fun e t => t = s ∨ StopsAt (checkColumn batch s.nrRows) (storeColumn batch)
        (List.range batch.size) s e t := by
  rw [addColumns, Ends.bind_iff, Ends.get_iff, Ends.bind_iff]
  refine (ends_checkIndices_idle _ _ _ _ s).mono ?_ fun _ _ => .inl
  rintro _ _ rfl
  rename_i s
  rw [Ends.ite_iff]
  refine ⟨fun _ => ?_, fun _ => .inl rfl⟩
  rw [Ends.bind_iff]
  refine (Ends.forIn_storeAll (checkColumn batch s.nrRows) (storeColumn batch)
    (fun k t => ?_) s).mono (fun _ u hu => ⟨u, hu, rfl⟩) fun _ _ => .inr
  rw [Ends.bind_iff, ends_liftM_iff]
  refine ⟨fun objective hobjective => ?_, fun e he => ⟨by rw [checkColumn, he]; rfl, rfl⟩⟩
  rw [Ends.bind_iff, ends_liftM_iff]
  refine ⟨fun coefficients hcoefficients => ?_,
    fun e he => ⟨by rw [checkColumn, hobjective, he]; rfl, rfl⟩⟩
  rw [Ends.bind_iff, Ends.modify_iff, Ends.pure_iff]
  exact ⟨rfl, (objective, coefficients),
    by rw [checkColumn, hobjective, hcoefficients]; rfl, rfl⟩

/-! ## Rows -/

/-- Check a row of a batch. -/
def checkRow (batch : RowBatch) (nrColumns k : Nat) : Except SolverError (Array Rat) :=
  toDense nrColumns (batch.entries.items k)

/-- Store a row of a batch that was accepted. -/
def storeRow (batch : RowBatch) (k : Nat) (coefficients : Array Rat) : Simplex → Simplex :=
  pushRow (toBounds (batch.lhs.getD k 0) (batch.rhs.getD k 0)) coefficients

/-- Rows are added one by one. The last result is forgotten at the end only. -/
theorem ends_addRows_stored (batch : RowBatch) (s : Simplex) :
    Ends (addRows batch) s
      (fun _ t => ∃ u, storeAll (checkRow batch s.nrColumns) (storeRow batch)
        (List.range batch.size) s = .ok u ∧ t = { u with result := none })
      fun e t => t = s ∨ StopsAt (checkRow batch s.nrColumns) (storeRow batch)
        (List.range batch.size) s e t := by
  rw [addRows, Ends.bind_iff, Ends.get_iff, Ends.bind_iff]
  refine (ends_checkIndices_idle _ _ _ _ s).mono ?_ fun _ _ => .inl
  rintro _ _ rfl
  rename_i s
  rw [Ends.ite_iff]
  refine ⟨fun _ => ?_, fun _ => .inl rfl⟩
  rw [Ends.bind_iff]
  refine (Ends.forIn_storeAll (checkRow batch s.nrColumns) (storeRow batch)
    (fun k t => ?_) s).mono (fun _ u hu => ⟨u, hu, rfl⟩) fun _ _ => .inr
  rw [Ends.bind_iff, ends_liftM_iff]
  refine ⟨fun coefficients hcoefficients => ?_, fun e he => ⟨he, rfl⟩⟩
  rw [Ends.bind_iff, Ends.modify_iff, Ends.pure_iff]
  exact ⟨rfl, coefficients, hcoefficients, rfl⟩

/-! ## Objective coefficients -/

/-- Store an objective coefficient that was accepted. -/
def storeCost (x : Nat × Extended) (objective : Rat) (s : Simplex) : Simplex :=
  { s with columns := s.columns.modify x.1 ({ · with objective }) }

/-- Objective coefficients are replaced one by one. The last result is forgotten at the end only. -/
theorem ends_changeObjective_stored (indices : Array Nat) (values : Array Extended) (s : Simplex) :
    Ends (changeObjective indices values) s
      (fun _ t => ∃ u, storeAll (fun x => toCoefficient x.2) storeCost (indices.zip values).toList s =
        .ok u ∧ t = { u with result := none })
      fun e t => t = s ∨ StopsAt (fun x => toCoefficient x.2) storeCost
        (indices.zip values).toList s e t := by
  rw [changeObjective, Ends.bind_iff, Ends.get_iff, Ends.bind_iff]
  refine (ends_checkIndices_idle _ _ _ _ s).mono ?_ fun _ _ => .inl
  rintro _ _ rfl
  rename_i s
  rw [Ends.bind_iff]
  refine (Ends.forIn_storeAll (fun x => toCoefficient x.2) storeCost
    (fun x t => ?_) s).mono (fun _ u hu => ⟨u, hu, rfl⟩) fun _ _ => .inr
  rw [Ends.bind_iff, ends_liftM_iff]
  refine ⟨fun objective hobjective => ?_, fun e he => ⟨he, rfl⟩⟩
  rw [Ends.bind_iff, Ends.modify_iff, Ends.pure_iff]
  exact ⟨rfl, objective, hobjective, rfl⟩

/-! ## What stays from earlier solves -/

/-- What solves left behind is still there: the result, and the statuses of the lines that there
were before. -/
structure KeepsPast (s t : Simplex) : Prop where
  result : t.result = s.result
  iterations : t.iterations = s.iterations
  columns : s.basis.columns.toList <+: t.basis.columns.toList
  rows : s.basis.rows.toList <+: t.basis.rows.toList

instance : IsPreorder Simplex KeepsPast where
  refl _ := ⟨rfl, rfl, List.prefix_rfl, List.prefix_rfl⟩
  trans _ _ _ h h' := ⟨h'.result.trans h.result, h'.iterations.trans h.iterations,
    h.columns.trans h'.columns, h.rows.trans h'.rows⟩

theorem keepsPast_storeColumn (batch : ColumnBatch) (k : Nat) (accepted : Rat × Array Rat)
    (s : Simplex) : KeepsPast s (storeColumn batch k accepted s) := by
  have hrows : (storeColumn batch k accepted s).basis.rows = s.basis.rows := by
    refine Array.ext_getElem? fun j => ?_
    rw [basis, basis, storeColumn, pushColumn, Array.getElem?_map, Array.getElem?_map,
      Array.getElem?_mapIdx, Option.map_map]
    rfl
  refine ⟨rfl, rfl, ?_, by rw [hrows]⟩
  simp [basis, storeColumn, pushColumn]

theorem keepsPast_storeRow (batch : RowBatch) (k : Nat) (coefficients : Array Rat) (s : Simplex) :
    KeepsPast s (storeRow batch k coefficients s) := by
  refine ⟨rfl, rfl, List.prefix_rfl, ?_⟩
  simp [basis, storeRow, pushRow]

/-- What is stored item by item keeps what earlier solves left. -/
theorem keepsPast_storeAll {α β : Type} {check : α → Except SolverError β}
    {store : α → β → Simplex → Simplex} (hstore : ∀ x b s, KeepsPast s (store x b s)) {xs : List α}
    (h : storeAll check store xs s = .ok t) : KeepsPast s t :=
  storeAll_keeps (R := fun _ t => KeepsPast s t) (refl s)
    (fun _ x _ b t _ ht _ => IsTrans.trans _ _ _ ht (hstore x b t)) h

/-! ## Calls that were refused -/

/-- The columns that were stored are held as the batch says. -/
theorem holdsColumns_stored (hs : s.Rectangular) {batch : ColumnBatch} {k : Nat}
    (h : storeAll (checkColumn batch s.nrRows) (storeColumn batch) (List.range k) s = .ok t) :
    HoldsColumns batch s t k := by
  refine storeAll_range (I := fun k t => HoldsColumns batch s t k) (holdsColumns_zero hs batch)
    (fun n accepted u hu haccepted => ?_) h
  cases hobjective : toCoefficient (batch.objective.getD n 0) with
  | error e =>
    rw [checkColumn, hobjective] at haccepted
    cases haccepted
  | ok objective =>
    cases hcoefficients : toDense s.nrRows (batch.entries.items n) with
    | error e =>
      rw [checkColumn, hobjective, hcoefficients] at haccepted
      cases haccepted
    | ok coefficients =>
      rw [checkColumn, hobjective, hcoefficients] at haccepted
      cases haccepted
      exact hu.push (toCoefficient_eq_ok.mp hobjective) hcoefficients

/-- The rows that were stored are held as the batch says. -/
theorem holdsRows_stored (hs : s.Rectangular) {batch : RowBatch} {k : Nat}
    (h : storeAll (checkRow batch s.nrColumns) (storeRow batch) (List.range k) s = .ok t) :
    HoldsRows batch s t k :=
  storeAll_range (I := fun k t => HoldsRows batch s t k) (holdsRows_zero hs batch)
    (fun _ _ _ hu haccepted => hu.push haccepted) h

/-- If a batch of columns is refused, then the solver holds the columns before the one that was
refused, and the result of the last solve, which did not know them. -/
theorem addColumns_refused (hs : s.Rectangular) {batch : ColumnBatch}
    (h : (addColumns batch).run.run s = (.error e, t)) :
    t = s ∨ ∃ k < batch.size,
      checkColumn batch s.nrRows k = .error e ∧ HoldsColumns batch s t k ∧ KeepsPast s t := by
  refine ((ends_addColumns_stored batch s).of_error h).imp id fun hstops => ?_
  obtain ⟨k, hk, hstored, hrefused⟩ := hstops.exists_lt
  exact ⟨k, hk, hrefused, holdsColumns_stored hs hstored,
    keepsPast_storeAll (keepsPast_storeColumn batch) hstored⟩

/-- If a batch of rows is refused, then the solver holds the rows before the one that was refused,
and the result of the last solve, which did not know them. -/
theorem addRows_refused (hs : s.Rectangular) {batch : RowBatch}
    (h : (addRows batch).run.run s = (.error e, t)) :
    t = s ∨ ∃ k < batch.size,
      checkRow batch s.nrColumns k = .error e ∧ HoldsRows batch s t k ∧ KeepsPast s t := by
  refine ((ends_addRows_stored batch s).of_error h).imp id fun hstops => ?_
  obtain ⟨k, hk, hstored, hrefused⟩ := hstops.exists_lt
  exact ⟨k, hk, hrefused, holdsRows_stored hs hstored,
    keepsPast_storeAll (keepsPast_storeRow batch) hstored⟩

theorem storeAll_cost {items : List (Nat × Extended)}
    (h : storeAll (fun x => toCoefficient x.2) storeCost items s = .ok t) :
    t = { s with columns := withCosts s.columns (acceptedCosts items) } := by
  refine storeAll_keeps
    (R := fun done t => t = { s with columns := withCosts s.columns (acceptedCosts done) }) rfl ?_ h
  rintro done x rest objective _ - rfl hobjective
  rw [acceptedCosts_concat (toCoefficient_eq_ok.mp hobjective), withCosts_concat]
  rfl

/-- If a change of objective coefficients is refused, then the ones before the one that was refused
are changed, and the result of the last solve, which did not know them, is still there. -/
theorem changeObjective_refused {indices : Array Nat} {values : Array Extended}
    (h : (changeObjective indices values).run.run s = (.error e, t)) :
    t = s ∨ ∃ done x rest, (indices.zip values).toList = done ++ x :: rest ∧
      toCoefficient x.2 = .error e ∧
      t = { s with columns := withCosts s.columns (acceptedCosts done) } := by
  refine ((ends_changeObjective_stored indices values s).of_error h).imp id ?_
  rintro ⟨done, x, rest, hitems, hstored, hrefused⟩
  exact ⟨done, x, rest, hitems, hrefused, storeAll_cost hstored⟩

/-- After a batch of columns was refused, the result of the last solve is cut at the new number of
columns: the values of the first rows count as those of the columns that were stored. -/
theorem solution_addColumns_refused {r : Result} (hr : s.result = some r) {batch : ColumnBatch}
    {k : Nat} (ht : HoldsColumns batch s t k) (hpast : KeepsPast s t) :
    ∃ x, t.solution = .ok x ∧ x.primal = toValues (r.values.extract 0 (s.nrColumns + k)) ∧
      x.activity = toValues (r.values.extract (s.nrColumns + k) r.values.size) := by
  have hresult : t.currentResult = .ok r := by rw [currentResult, hpast.result, hr]
  rw [solution, hresult, ← ht.nrColumns]
  exact ⟨_, rfl, rfl, rfl⟩

/-! ## Calls without effect -/

/-- If the call fails, then it has changed nothing. -/
def LeavesAlone (x : SolverM Simplex Unit) (s : Simplex) : Prop :=
  Ends x s (fun _ _ => True) fun _ t => t = s

theorem exists_toCoefficient_iff {x : Extended} :
    (∃ q, toCoefficient x = .ok q) ↔ (finiteEnd? x).isSome = true := by
  simp only [toCoefficient_eq_ok, Option.isSome_iff_exists]

/-- A dense line is refused if one of its values is, and only then. -/
theorem exists_toDense_iff (size : Nat) {items : List (Nat × Extended)} :
    (∃ dense, toDense size items = .ok dense) ↔ ∀ x ∈ items, (finiteEnd? x.2).isSome = true := by
  have hstored : toDense size items = storeAll (fun x => toCoefficient x.2)
      (fun x coefficient line => line.setIfInBounds x.1 coefficient) items
      (Array.replicate size 0) := by
    rfl
  rw [hstored, exists_storeAll_iff]
  exact forall₂_congr fun x _ => exists_toCoefficient_iff

/-- No objective coefficient and no coefficient of the columns counts as infinite. -/
structure AcceptsColumns (batch : ColumnBatch) : Prop where
  costs : ∀ k < batch.size, (finiteEnd? (batch.objective.getD k 0)).isSome = true
  entries : ∀ k < batch.size, ∀ x ∈ batch.entries.items k, (finiteEnd? x.2).isSome = true

/-- No coefficient of the rows counts as infinite. -/
def AcceptsRows (batch : RowBatch) : Prop :=
  ∀ k < batch.size, ∀ x ∈ batch.entries.items k, (finiteEnd? x.2).isSome = true

theorem exists_checkColumn_iff {batch : ColumnBatch} {nrRows k : Nat} :
    (∃ accepted, checkColumn batch nrRows k = .ok accepted) ↔
      (finiteEnd? (batch.objective.getD k 0)).isSome = true ∧
        ∀ x ∈ batch.entries.items k, (finiteEnd? x.2).isSome = true := by
  rw [← exists_toCoefficient_iff, ← exists_toDense_iff nrRows, checkColumn]
  cases toCoefficient (batch.objective.getD k 0) with
  | error e => exact ⟨fun ⟨_, h⟩ => (by cases h), fun ⟨⟨_, h⟩, _⟩ => (by cases h)⟩
  | ok objective =>
    cases toDense nrRows (batch.entries.items k) with
    | error e => exact ⟨fun ⟨_, h⟩ => (by cases h), fun ⟨_, ⟨_, h⟩⟩ => (by cases h)⟩
    | ok coefficients => exact ⟨fun _ => ⟨⟨_, rfl⟩, _, rfl⟩, fun _ => ⟨_, rfl⟩⟩

theorem acceptsColumns_iff {batch : ColumnBatch} (nrRows : Nat) : AcceptsColumns batch ↔
    ∀ k ∈ List.range batch.size, ∃ accepted, checkColumn batch nrRows k = .ok accepted := by
  simp only [List.mem_range, exists_checkColumn_iff]
  exact ⟨fun h k hk => ⟨h.costs k hk, h.entries k hk⟩,
    fun h => ⟨fun k hk => (h k hk).1, fun k hk => (h k hk).2⟩⟩

theorem acceptsRows_iff {batch : RowBatch} (nrColumns : Nat) : AcceptsRows batch ↔
    ∀ k ∈ List.range batch.size, ∃ accepted, checkRow batch nrColumns k = .ok accepted := by
  simp only [List.mem_range, checkRow, exists_toDense_iff]
  rfl

/-- Where every item is accepted, no item stops the others from being stored. -/
theorem not_stopsAt {α β : Type} {check : α → Except SolverError β}
    {store : α → β → Simplex → Simplex} {xs : List α} (h : ∀ x ∈ xs, ∃ b, check x = .ok b) :
    ¬ StopsAt check store xs s e t := by
  rintro ⟨done, x, rest, hxs, -, hrefused⟩
  obtain ⟨b, hb⟩ := h x (by rw [hxs]; simp)
  rw [hb] at hrefused
  cases hrefused

/-- Columns without infinite coefficients are added, or nothing is changed. Others are not added. -/
theorem addColumns_accepts (batch : ColumnBatch) (s : Simplex) :
    Ends (addColumns batch) s (fun _ _ => AcceptsColumns batch)
      fun _ t => AcceptsColumns batch → t = s := by
  refine (ends_addColumns_stored batch s).mono ?_ fun e t h haccepts => h.resolve_right ?_
  · rintro _ _ ⟨u, hu, -⟩
    exact (acceptsColumns_iff s.nrRows).mpr (exists_storeAll_iff.mp ⟨u, hu⟩)
  · exact not_stopsAt ((acceptsColumns_iff s.nrRows).mp haccepts)

/-- Rows without infinite coefficients are added, or nothing is changed. Others are not added. -/
theorem addRows_accepts (batch : RowBatch) (s : Simplex) :
    Ends (addRows batch) s (fun _ _ => AcceptsRows batch) fun _ t => AcceptsRows batch → t = s := by
  refine (ends_addRows_stored batch s).mono ?_ fun e t h haccepts => h.resolve_right ?_
  · rintro _ _ ⟨u, hu, -⟩
    exact (acceptsRows_iff s.nrColumns).mpr (exists_storeAll_iff.mp ⟨u, hu⟩)
  · exact not_stopsAt ((acceptsRows_iff s.nrColumns).mp haccepts)

/-- Objective coefficients that are not infinite are changed, or nothing is. Others are not. -/
theorem changeObjective_accepts (indices : Array Nat) (values : Array Extended) (s : Simplex) :
    Ends (changeObjective indices values) s
      (fun _ _ => ∀ x ∈ (indices.zip values).toList, (finiteEnd? x.2).isSome = true)
      fun _ t => (∀ x ∈ (indices.zip values).toList, (finiteEnd? x.2).isSome = true) → t = s := by
  simp only [← exists_toCoefficient_iff]
  refine (ends_changeObjective_stored indices values s).mono ?_ fun e t h haccepts =>
    h.resolve_right (not_stopsAt haccepts)
  rintro _ _ ⟨u, hu, -⟩
  exact exists_storeAll_iff.mp ⟨u, hu⟩

/-- A call that checks everything before it changes anything fails without effect. -/
theorem leavesAlone_of_check {x : SolverM Simplex Unit} {f : Unit → SolverM Simplex Unit}
    (hx : Ends x s (fun _ t => t = s) fun _ t => t = s)
    (hf : Ends (f ()) s (fun _ _ => True) fun _ _ => False) : LeavesAlone (x >>= f) s := by
  rw [LeavesAlone, Ends.bind_iff]
  refine hx.mono_ok ?_
  rintro _ _ rfl
  exact hf.mono (fun _ _ _ => trivial) fun _ _ => False.elim

theorem ends_checkRange_idle (kind : LineKind) (first last count : Nat) (s : Simplex) :
    Ends (checkRange kind first last count) s (fun _ t => t = s) fun _ t => t = s := by
  rw [checkRange, Ends.ite_iff]
  exact ⟨fun _ => rfl, fun _ => rfl⟩

theorem leavesAlone_deleteColumns (first last : Nat) (s : Simplex) :
    LeavesAlone (deleteColumns first last) s := by
  rw [LeavesAlone, deleteColumns, Ends.bind_iff, Ends.get_iff]
  exact leavesAlone_of_check (ends_checkRange_idle ..) trivial

theorem leavesAlone_deleteRows (first last : Nat) (s : Simplex) :
    LeavesAlone (deleteRows first last) s := by
  rw [LeavesAlone, deleteRows, Ends.bind_iff, Ends.get_iff]
  exact leavesAlone_of_check (ends_checkRange_idle ..) trivial

theorem leavesAlone_changeBounds (indices : Array Nat) (lower upper : Array Extended)
    (s : Simplex) : LeavesAlone (changeBounds indices lower upper) s := by
  rw [LeavesAlone, changeBounds, Ends.bind_iff, Ends.get_iff]
  refine leavesAlone_of_check (ends_checkIndices_idle ..) (Ends.bind_iff.mpr ?_)
  refine (Ends.forIn_keeps (fun _ => True) trivial fun _ _ t _ => ?_).mono_ok fun _ _ _ => trivial
  rw [Ends.bind_iff, Ends.modify_iff, Ends.pure_iff]
  exact ⟨rfl, trivial⟩

theorem leavesAlone_changeSides (indices : Array Nat) (lhs rhs : Array Extended) (s : Simplex) :
    LeavesAlone (changeSides indices lhs rhs) s := by
  rw [LeavesAlone, changeSides, Ends.bind_iff, Ends.get_iff]
  refine leavesAlone_of_check (ends_checkIndices_idle ..) (Ends.bind_iff.mpr ?_)
  refine (Ends.forIn_keeps (fun _ => True) trivial fun _ _ t _ => ?_).mono_ok fun _ _ _ => trivial
  rw [Ends.bind_iff, Ends.modify_iff, Ends.pure_iff]
  exact ⟨rfl, trivial⟩

theorem leavesAlone_setBasis (b : Basis) (s : Simplex) : LeavesAlone (setBasis b) s := by
  rw [LeavesAlone, setBasis, Ends.bind_iff, Ends.get_iff, Ends.ite_iff]
  exact ⟨fun _ => trivial, fun _ => rfl⟩

theorem leavesAlone_setInt (parameter : IntParameter) (value : Int) (s : Simplex) :
    LeavesAlone (setInt parameter value) s := by
  rw [LeavesAlone, setInt.eq_def]
  split
  · trivial
  · rw [Ends.ite_iff, Ends.ite_iff]
    exact ⟨fun _ => trivial, fun _ => ⟨fun _ => rfl, fun _ => trivial⟩⟩
  · split
    · trivial
    · rfl
  · trivial

theorem leavesAlone_setReal (parameter : RealParameter) (value : Extended) (s : Simplex) :
    LeavesAlone (setReal parameter value) s := by
  rw [LeavesAlone, setReal.eq_def]
  split <;> trivial

end Simplex

end CertifiedLp
