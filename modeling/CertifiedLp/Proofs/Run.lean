import Mathlib
import CertifiedLp.Relaxation.Basic

/-!
# Runs of stateful operations

An operation on a matrix, a solver or a relaxation returns a result or throws an error, and leaves a
state in both cases. `Ends` says how its run from a given state ends; the rules below take an
operation apart along its definition. A loop is covered by an assertion on how far it has come.
-/

namespace CertifiedLp

variable {ε σ α β γ : Type}

/-- After an error, the rest does not run. -/
theorem run_bind (x : ExceptT ε (StateM σ) α) (f : α → ExceptT ε (StateM σ) β) (s : σ) :
    (x >>= f).run.run s = match x.run.run s with
      | (.ok a, t) => (f a).run.run t
      | (.error e, t) => (.error e, t) := by
  simp only [ExceptT.run_bind, StateT.run_bind]
  generalize x.run.run s = y
  rcases y with ⟨_ | _, _⟩ <;> rfl

/-- After an error, the handler goes on with the state that was left. -/
theorem run_tryCatch (x : ExceptT ε (StateM σ) α) (handler : ε → ExceptT ε (StateM σ) α) (s : σ) :
    (tryCatch x handler).run.run s = match x.run.run s with
      | (.ok a, t) => (.ok a, t)
      | (.error e, t) => (handler e).run.run t := by
  have hunfold : (tryCatch x handler).run.run s =
      (StateT.run x.run s >>= fun p => StateT.run (match p.1 with
        | .ok a => pure (.ok a)
        | .error e => (handler e).run) p.2) := rfl
  rw [hunfold]
  change (match x.run.run s with | (a, t) => _) = _
  generalize x.run.run s = y
  rcases y with ⟨_ | _, _⟩ <;> rfl

/-- The run from a state ends in a result and a state that satisfy `Q`, or in an error and a state
that satisfy `E`. -/
def Ends (x : ExceptT ε (StateM σ) α) (s : σ) (Q : α → σ → Prop) (E : ε → σ → Prop) : Prop :=
  match x.run.run s with
  | (.ok a, t) => Q a t
  | (.error e, t) => E e t

namespace Ends

variable {x : ExceptT ε (StateM σ) α} {f : α → ExceptT ε (StateM σ) β} {s t : σ}
variable {Q Q' : α → σ → Prop} {E E' : ε → σ → Prop}

theorem mono (h : Ends x s Q E) (hQ : ∀ a t, Q a t → Q' a t) (hE : ∀ e t, E e t → E' e t) :
    Ends x s Q' E' := by
  unfold Ends at h ⊢
  split
  · next heq => rw [heq] at h; exact hQ _ _ h
  · next heq => rw [heq] at h; exact hE _ _ h

theorem mono_ok (h : Ends x s Q E) (hQ : ∀ a t, Q a t → Q' a t) : Ends x s Q' E :=
  h.mono hQ fun _ _ he => he

theorem and (h : Ends x s Q E) (h' : Ends x s Q' E') :
    Ends x s (fun a t => Q a t ∧ Q' a t) fun e t => E e t ∧ E' e t := by
  unfold Ends at h h' ⊢
  split
  · next heq => rw [heq] at h h'; exact ⟨h, h'⟩
  · next heq => rw [heq] at h h'; exact ⟨h, h'⟩

/-- What is said of errors does not matter if there are none. -/
theorem of_unfailing (h : Ends x s Q E) (hx : Ends x s (fun _ _ => True) fun _ _ => False) :
    Ends x s Q E' :=
  (h.and hx).mono (fun _ _ ht => ht.1) fun _ _ ht => ht.2.elim

/-- A run that returned satisfies the postcondition. -/
theorem of_ok (h : Ends x s Q E) {a : α} (hrun : x.run.run s = (.ok a, t)) : Q a t := by
  unfold Ends at h
  rwa [hrun] at h

theorem of_error (h : Ends x s Q E) {e : ε} (hrun : x.run.run s = (.error e, t)) : E e t := by
  unfold Ends at h
  rwa [hrun] at h

/-- Whatever the outcome is, the state satisfies what both postconditions say of it. -/
theorem state {I : σ → Prop} (h : Ends x s (fun _ => I) fun _ => I) : I (x.run.run s).2 := by
  unfold Ends at h
  split at h <;> next heq => rw [heq]; exact h

/-- A run that cannot fail returns. -/
theorem exists_ok (h : Ends x s Q fun _ _ => False) : ∃ a t, x.run.run s = (.ok a, t) ∧ Q a t := by
  unfold Ends at h
  split at h
  · next a t heq => exact ⟨a, t, heq, h⟩
  · exact h.elim

/-- A run either returns or fails. -/
theorem outcome (h : Ends x s Q E) :
    (∃ a t, x.run.run s = (.ok a, t) ∧ Q a t) ∨ ∃ e t, x.run.run s = (.error e, t) ∧ E e t := by
  unfold Ends at h
  split at h
  · next a t heq => exact .inl ⟨a, t, heq, h⟩
  · next e t heq => exact .inr ⟨e, t, heq, h⟩

/-- What a run does is a possible description of how it ends. -/
theorem self (x : ExceptT ε (StateM σ) α) (s : σ) :
    Ends x s (fun a t => x.run.run s = (.ok a, t)) fun e t => x.run.run s = (.error e, t) := by
  unfold Ends
  split <;> assumption

/-! ## Single steps -/

@[simp] theorem pure_iff {a : α} : Ends (pure a : ExceptT ε (StateM σ) α) s Q E ↔ Q a s := Iff.rfl

@[simp] theorem throw_iff {e : ε} :
    Ends (throw e : ExceptT ε (StateM σ) α) s Q E ↔ E e s := Iff.rfl

@[simp] theorem get_iff {Q : σ → σ → Prop} :
    Ends (get : ExceptT ε (StateM σ) σ) s Q E ↔ Q s s := Iff.rfl

@[simp] theorem set_iff {Q : PUnit → σ → Prop} :
    Ends (set t : ExceptT ε (StateM σ) PUnit) s Q E ↔ Q ⟨⟩ t := Iff.rfl

@[simp] theorem modify_iff {g : σ → σ} {Q : PUnit → σ → Prop} :
    Ends (modify g : ExceptT ε (StateM σ) PUnit) s Q E ↔ Q ⟨⟩ (g s) := Iff.rfl

@[simp] theorem bind_iff {Q : β → σ → Prop} :
    Ends (x >>= f) s Q E ↔ Ends x s (fun a t => Ends (f a) t Q E) E := by
  unfold Ends
  rw [run_bind]
  generalize x.run.run s = y
  rcases y with ⟨_ | _, _⟩ <;> rfl

/-- A step that cannot fail, and then the rest. -/
theorem bind_unfailing {Q : β → σ → Prop} {R : α → σ → Prop} (hx : Ends x s R fun _ _ => False)
    (hf : ∀ a t, R a t → Ends (f a) t Q E) : Ends (x >>= f) s Q E :=
  bind_iff.mpr (hx.mono hf fun _ _ h => h.elim)

@[simp] theorem map_iff {g : α → β} {Q : β → σ → Prop} :
    Ends (g <$> x) s Q E ↔ Ends x s (fun a t => Q (g a) t) E := by
  rw [map_eq_pure_bind, bind_iff]
  rfl

@[simp] theorem tryCatch_iff {handler : ε → ExceptT ε (StateM σ) α} :
    Ends (tryCatch x handler) s Q E ↔ Ends x s Q fun e t => Ends (handler e) t Q E := by
  unfold Ends
  rw [run_tryCatch]
  generalize x.run.run s = y
  rcases y with ⟨_ | _, _⟩ <;> rfl

@[simp] theorem liftM_except_ok {a : α} :
    Ends (liftM (Except.ok a : Except ε α) : ExceptT ε (StateM σ) α) s Q E ↔ Q a s := Iff.rfl

@[simp] theorem liftM_except_error {e : ε} :
    Ends (liftM (Except.error e : Except ε α) : ExceptT ε (StateM σ) α) s Q E ↔ E e s := Iff.rfl

theorem ite_iff {p : Prop} [Decidable p] {y : ExceptT ε (StateM σ) α} :
    Ends (if p then x else y) s Q E ↔ (p → Ends x s Q E) ∧ (¬ p → Ends y s Q E) := by
  split <;> simp [*]

/-- A step that is taken under a condition only. -/
theorem when_iff {p : Prop} [Decidable p] {x : ExceptT ε (StateM σ) PUnit}
    {f : PUnit → ExceptT ε (StateM σ) β} {Q : β → σ → Prop} :
    Ends (if p then x >>= f else f ⟨⟩) s Q E ↔
      Ends (if p then x else pure ⟨⟩) s (fun a t => Ends (f a) t Q E) E := by
  split <;> simp

/-! ## Loops -/

/-- A loop over a list, with an assertion on the part of the list that is done. -/
theorem forIn_list {xs : List α} {body : α → PUnit → ExceptT ε (StateM σ) (ForInStep PUnit)}
    (I : List α → σ → Prop) (h : I [] s)
    (hstep : ∀ done x rest t, xs = done ++ x :: rest → I done t →
      Ends (body x ⟨⟩) t (fun step u => step = .yield ⟨⟩ ∧ I (done ++ [x]) u) E) :
    Ends (forIn xs ⟨⟩ body) s (fun _ t => I xs t) E := by
  suffices hrest : ∀ done rest t, xs = done ++ rest → I done t →
      Ends (forIn rest ⟨⟩ body) t (fun _ u => I xs u) E from hrest [] xs s rfl h
  intro done rest
  induction rest generalizing done with
  | nil =>
    intro t hxs ht
    simp only [List.forIn_nil, pure_iff]
    rwa [hxs, List.append_nil]
  | cons x rest ih =>
    intro t hxs ht
    rw [List.forIn_cons, bind_iff]
    refine (hstep done x rest t hxs ht).mono_ok ?_
    rintro _ u ⟨rfl, hu⟩
    exact ih (done ++ [x]) u (by simp [hxs]) hu

/-- A loop that counts, with an assertion on the next number. -/
theorem forIn_range {n : Nat} {body : Nat → PUnit → ExceptT ε (StateM σ) (ForInStep PUnit)}
    (I : Nat → σ → Prop) (h : I 0 s)
    (hstep : ∀ i t, i < n → I i t →
      Ends (body i ⟨⟩) t (fun step u => step = .yield ⟨⟩ ∧ I (i + 1) u) E) :
    Ends (forIn (List.range n) ⟨⟩ body) s (fun _ t => I n t) E := by
  refine (forIn_list (fun done => I done.length) h ?_).mono_ok fun _ t ht => by
    simpa using ht
  intro done i rest t hxs ht
  have hi : i = done.length := by
    have hget : (List.range n)[done.length]? = some i := by simp [hxs]
    simpa using (List.getElem?_eq_some_iff.mp hget).2.symm
  have hlt : i < n := List.mem_range.mp (by rw [hxs]; simp)
  subst hi
  simpa using hstep _ t hlt ht

/-- A loop over a list with an assertion that every round keeps. -/
theorem forIn_keeps {xs : List α} {body : α → PUnit → ExceptT ε (StateM σ) (ForInStep PUnit)}
    (I : σ → Prop) (h : I s)
    (hstep : ∀ x ∈ xs, ∀ t, I t → Ends (body x ⟨⟩) t (fun step u => step = .yield ⟨⟩ ∧ I u) E) :
    Ends (forIn xs ⟨⟩ body) s (fun _ t => I t) E :=
  forIn_list (fun _ => I) h fun done x rest t hxs => hstep x (by simp [hxs]) t

/-- A fold over a list, with an assertion on the part of the list that is done. -/
theorem foldlM_list {xs : List α} {body : γ → α → ExceptT ε (StateM σ) γ} {init : γ}
    (I : List α → γ → σ → Prop) (h : I [] init s)
    (hstep : ∀ done x rest acc t, xs = done ++ x :: rest → I done acc t →
      Ends (body acc x) t (fun acc u => I (done ++ [x]) acc u) E) :
    Ends (xs.foldlM body init) s (fun acc t => I xs acc t) E := by
  suffices hrest : ∀ done rest acc t, xs = done ++ rest → I done acc t →
      Ends (rest.foldlM body acc) t (fun acc u => I xs acc u) E from hrest [] xs init s rfl h
  intro done rest
  induction rest generalizing done with
  | nil =>
    intro acc t hxs ht
    simp only [List.foldlM_nil, pure_iff]
    rwa [hxs, List.append_nil]
  | cons x rest ih =>
    intro acc t hxs ht
    rw [List.foldlM_cons, bind_iff]
    refine (hstep done x rest acc t hxs ht).mono_ok ?_
    intro acc u hu
    exact ih (done ++ [x]) acc u (by simp [hxs]) hu

end Ends

/-! ## Operations on a matrix -/

namespace ConstraintMatrix

variable {m : ConstraintMatrix} {c : ColumnRef} {r : RowRef} {row : Row}
variable {E : LpError → ConstraintMatrix → Prop}

@[simp] theorem ends_getColumn {Q : Column → ConstraintMatrix → Prop} :
    Ends (getColumn c) m Q E ↔ Q (m.column c) m := by
  rw [getColumn, Ends.bind_iff]
  rfl

theorem ends_getRow_iff {Q : Row → ConstraintMatrix → Prop} :
    Ends (getRow r) m Q E ↔
      (∀ row, m.row? r = some row → Q row m) ∧
        (m.row? r = none → E (.misuse (.rowMissing r)) m) := by
  rw [getRow, Ends.bind_iff, Ends.get_iff, existingRow]
  split <;> simp_all

theorem ends_getRow (h : m.row? r = some row) {Q : Row → ConstraintMatrix → Prop} :
    Ends (getRow r) m Q E ↔ Q row m := by
  simp [ends_getRow_iff, h]

theorem ends_getRow_missing (h : m.row? r = none) {Q : Row → ConstraintMatrix → Prop} :
    Ends (getRow r) m Q E ↔ E (.misuse (.rowMissing r)) m := by
  simp [ends_getRow_iff, h]

@[simp] theorem ends_updateColumn {f : Column → Column} {Q : Unit → ConstraintMatrix → Prop} :
    Ends (updateColumn c f) m Q E ↔ Q () (m.modifyColumn c f) := Iff.rfl

theorem ends_updateRow_iff {f : Row → Row} {Q : Unit → ConstraintMatrix → Prop} :
    Ends (updateRow r f) m Q E ↔
      ((m.row? r).isSome → Q () (m.modifyRow r f)) ∧
        (m.row? r = none → E (.misuse (.rowMissing r)) m) := by
  rw [updateRow, Ends.bind_iff, ends_getRow_iff]
  cases m.row? r <;> simp

theorem ends_updateRow (h : m.row? r = some row) {f : Row → Row}
    {Q : Unit → ConstraintMatrix → Prop} :
    Ends (updateRow r f) m Q E ↔ Q () (m.modifyRow r f) := by
  simp [ends_updateRow_iff, h]

end ConstraintMatrix

/-! ## Operations on a relaxation -/

namespace Relaxation

variable {τ : Type} [Solver τ] {lp : Relaxation τ} {c : ColumnRef} {r : RowRef} {row : Row}
variable {Q : α → Relaxation τ → Prop} {E : LpError → Relaxation τ → Prop}

@[simp] theorem ends_onMatrix {x : MatrixM α} :
    Ends (onMatrix x) lp Q E ↔
      Ends x lp.matrix (fun a m => Q a { lp with matrix := m })
        fun e m => E e { lp with matrix := m } := by
  unfold Ends
  have hrun : (onMatrix x : RelaxationM τ α).run.run lp =
      ((x.run.run lp.matrix).1, { lp with matrix := (x.run.run lp.matrix).2 }) := rfl
  rw [hrun]
  generalize x.run.run lp.matrix = y
  rcases y with ⟨_ | _, _⟩ <;> rfl

@[simp] theorem ends_onSolver {x : SolverM τ α} :
    Ends (onSolver x) lp Q E ↔
      Ends x lp.solver (fun a s => Q a { lp with solver := s })
        fun e s => E (.solver e) { lp with solver := s } := by
  unfold Ends
  have hrun : (onSolver x : RelaxationM τ α).run.run lp =
      ((x.run.run lp.solver).1.mapError .solver,
        { lp with solver := (x.run.run lp.solver).2 }) := rfl
  rw [hrun]
  generalize x.run.run lp.solver = y
  rcases y with ⟨_ | _, _⟩ <;> rfl

theorem ends_askSolver_iff {f : τ → Except SolverError α} :
    Ends (askSolver f) lp Q E ↔
      (∀ a, f lp.solver = .ok a → Q a lp) ∧ ∀ e, f lp.solver = .error e → E (.solver e) lp := by
  rw [askSolver, Ends.bind_iff, Ends.get_iff]
  split <;> simp_all

@[simp] theorem ends_getColumn {Q : Column → Relaxation τ → Prop} :
    Ends (getColumn c) lp Q E ↔ Q (lp.matrix.column c) lp := by
  rw [getColumn, Ends.bind_iff]
  rfl

theorem ends_getRow_iff {Q : Row → Relaxation τ → Prop} :
    Ends (getRow r) lp Q E ↔
      (∀ row, lp.matrix.row? r = some row → Q row lp) ∧
        (lp.matrix.row? r = none → E (.misuse (.rowMissing r)) lp) := by
  rw [getRow, Ends.bind_iff, Ends.get_iff, ConstraintMatrix.existingRow]
  split <;> simp_all

theorem ends_getRow (h : lp.matrix.row? r = some row) {Q : Row → Relaxation τ → Prop} :
    Ends (getRow r) lp Q E ↔ Q row lp := by
  simp [ends_getRow_iff, h]

theorem ends_getRow_missing (h : lp.matrix.row? r = none) {Q : Row → Relaxation τ → Prop} :
    Ends (getRow r) lp Q E ↔ E (.misuse (.rowMissing r)) lp := by
  simp [ends_getRow_iff, h]

theorem ends_updateRow (h : lp.matrix.row? r = some row) {f : Row → Row}
    {Q : Unit → Relaxation τ → Prop} :
    Ends (updateRow r f) lp Q E ↔ Q () { lp with matrix := lp.matrix.modifyRow r f } := by
  rw [updateRow, ends_onMatrix, ConstraintMatrix.ends_updateRow h]

/-- A row that is accepted is appended to the matrix, and nothing else happens. -/
theorem ends_createRow_iff {name : String} {spec : RowSpec} {Q : RowRef → Relaxation τ → Prop} :
    Ends (createRow name spec) lp Q E ↔
      ((!spec.sides.isValid || spec.constant.isInfinite) = true →
        E (.misuse (.rowInvalid name)) lp) ∧
      (¬ (!spec.sides.isValid || spec.constant.isInfinite) = true →
        Q (lp.matrix.pushRow (.create name spec)).2
          { lp with matrix := (lp.matrix.pushRow (.create name spec)).1 }) := by
  rw [createRow, Ends.ite_iff]
  rfl

/-- A column of a variable that is accepted is appended to the matrix, and the objective values that
do not depend on a solve count it. -/
theorem ends_createColumn_iff {problem : Problem} {x : VariableRef}
    {Q : Problem × ColumnRef → Relaxation τ → Prop} :
    Ends (createColumn problem x) lp Q E ↔
      ((problem.get x).column.isSome = true →
        E (.misuse (.variableHasColumn (problem.get x).name)) lp) ∧
      (¬ (problem.get x).column.isSome = true →
        (((problem.get x).spec.objective.isInfinite || !(problem.get x).spec.bounds.isValid) = true →
          E (.misuse (.variableInvalid (problem.get x).name)) lp) ∧
        (¬ ((problem.get x).spec.objective.isInfinite ||
            !(problem.get x).spec.bounds.isValid) = true →
          Q (problem.modify x ({ · with column := some ⟨lp.matrix.columns.size⟩ }),
              ⟨lp.matrix.columns.size⟩)
            { lp with
              matrix := (lp.matrix.pushColumn (.create x ((problem.get x).kind == .integer)
                (problem.get x).spec)).1
              pseudo := lp.pseudo.add (problem.get x).spec.bestObjective?
              loose := lp.loose.add (problem.get x).spec.bestObjective? })) := by
  rw [createColumn, Ends.ite_iff, Ends.ite_iff]
  rfl

@[simp] theorem ends_modifyMatrix {f : ConstraintMatrix → ConstraintMatrix}
    {Q : Unit → Relaxation τ → Prop} :
    Ends (modifyMatrix f) lp Q E ↔ Q () { lp with matrix := f lp.matrix } := Iff.rfl

end Relaxation

end CertifiedLp
