import Mathlib
import CertifiedLp.Proofs.Run

/-!
# Runs along a relation

An operation goes *along* a relation if every run of it, whatever its outcome, relates the state
before it to the state after it. Relations that are reflexive and transitive are kept by everything
that operations are composed of, so that a long operation goes along such a relation if its steps
do.
-/

namespace CertifiedLp

variable {ε σ α β γ : Type}

/-- Every run of an operation relates the state before it to the state after it. -/
def Along (R : σ → σ → Prop) (x : ExceptT ε (StateM σ) α) : Prop :=
  ∀ s, Ends x s (fun _ => R s) fun _ => R s

namespace Along

variable {R R' : σ → σ → Prop} {x : ExceptT ε (StateM σ) α} {f : α → ExceptT ε (StateM σ) β}
variable {s : σ}

theorem mono (h : Along R x) (hR : ∀ s t, R s t → R' s t) : Along R' x := fun s =>
  (h s).mono (fun _ t => hR s t) fun _ t => hR s t

/-- Whatever the outcome is, the states are related. -/
theorem state (h : Along R x) (s : σ) : R s (x.run.run s).2 := (h s).state

theorem modify {g : σ → σ} (h : ∀ s, R s (g s)) :
    Along R (modify g : ExceptT ε (StateM σ) PUnit) := fun s => h s

/-- What is done with the current state may depend on it. -/
theorem get {f : σ → ExceptT ε (StateM σ) β} (h : ∀ s, Along R (f s)) :
    Along R (MonadState.get >>= f) := fun s => Ends.bind_iff.mpr (h s s)

theorem ite {p : Prop} [Decidable p] {y : ExceptT ε (StateM σ) α} (hx : Along R x)
    (hy : Along R y) : Along R (if p then x else y) := by
  split
  · exact hx
  · exact hy

section Preorder

variable [IsPreorder σ R]

theorem pure {a : α} : Along R (pure a : ExceptT ε (StateM σ) α) := fun s => refl s

theorem throw {e : ε} : Along R (throw e : ExceptT ε (StateM σ) α) := fun s => refl s

theorem liftM {x : Except ε α} : Along R (liftM x : ExceptT ε (StateM σ) α) := by
  cases x <;> exact fun s => refl s

/-- Nothing is done after an error. -/
theorem throw_bind {e : ε} :
    Along R ((MonadExcept.throw e : ExceptT ε (StateM σ) α) >>= f) := fun s =>
  Ends.bind_iff.mpr (refl s)

theorem bind (hx : Along R x) (hf : ∀ a, Along R (f a)) : Along R (x >>= f) := fun s =>
  Ends.bind_iff.mpr ((hx s).mono_ok fun a t ht =>
    (hf a t).mono (fun _ _ h => IsTrans.trans _ _ _ ht h) fun _ _ h => IsTrans.trans _ _ _ ht h)

/-- A step that is taken under a condition only. -/
theorem when {p : Prop} [Decidable p] {x : ExceptT ε (StateM σ) PUnit}
    {f : PUnit → ExceptT ε (StateM σ) β} (hx : Along R x) (hf : Along R (f ⟨⟩)) :
    Along R (if p then x >>= f else f ⟨⟩) := .ite (hx.bind fun _ => hf) hf

theorem tryCatch {handler : ε → ExceptT ε (StateM σ) α} (hx : Along R x)
    (hhandler : ∀ e, Along R (handler e)) : Along R (tryCatch x handler) := fun s =>
  Ends.tryCatch_iff.mpr ((hx s).mono (fun _ _ h => h) fun e t ht =>
    (hhandler e t).mono (fun _ _ h => IsTrans.trans _ _ _ ht h)
      fun _ _ h => IsTrans.trans _ _ _ ht h)

theorem forIn {xs : List α} {body : α → γ → ExceptT ε (StateM σ) (ForInStep γ)}
    (h : ∀ x acc, Along R (body x acc)) (acc : γ) : Along R (forIn xs acc body) := by
  induction xs generalizing acc with
  | nil => exact .pure
  | cons x xs ih =>
    rw [List.forIn_cons]
    refine (h x acc).bind fun step => ?_
    cases step with
    | done acc => exact .pure
    | yield acc => exact ih acc

theorem forIn_array {xs : Array α} {body : α → γ → ExceptT ε (StateM σ) (ForInStep γ)}
    (h : ∀ x acc, Along R (body x acc)) (acc : γ) : Along R (ForIn.forIn xs acc body) := by
  rw [← Array.forIn_toList]
  exact forIn h acc

theorem foldlM {xs : List α} {body : γ → α → ExceptT ε (StateM σ) γ}
    (h : ∀ acc x, Along R (body acc x)) (acc : γ) : Along R (xs.foldlM body acc) := by
  induction xs generalizing acc with
  | nil => exact .pure
  | cons x xs ih =>
    rw [List.foldlM_cons]
    exact (h acc x).bind ih

end Preorder

end Along

/-- What was so before an operation is so afterwards. -/
def Preserves (I : σ → Prop) (s t : σ) : Prop := I s → I t

instance (I : σ → Prop) : IsPreorder σ (Preserves I) where
  refl _ := id
  trans _ _ _ h h' := h' ∘ h

/-- Where it does not hold before, nothing is to be shown. -/
theorem along_preserves {I : σ → Prop} {x : ExceptT ε (StateM σ) α}
    (h : ∀ s, I s → Ends x s (fun _ => I) fun _ => I) : Along (Preserves I) x := by
  intro s
  by_cases hs : I s
  · exact (h s hs).mono (fun _ _ ht _ => ht) fun _ _ ht _ => ht
  · exact (Ends.self x s).mono (fun _ _ _ h => (hs h).elim) fun _ _ _ h => (hs h).elim

/-! ## Reading -/

namespace ConstraintMatrix

variable {R : ConstraintMatrix → ConstraintMatrix → Prop} [IsPreorder ConstraintMatrix R]

theorem along_getColumn (c : ColumnRef) : Along R (getColumn c) := by
  intro m
  exact ends_getColumn.mpr (refl m)

theorem along_getRow (r : RowRef) : Along R (getRow r) := by
  intro m
  exact ends_getRow_iff.mpr ⟨fun _ _ => refl m, fun _ => refl m⟩

end ConstraintMatrix

namespace Relaxation

variable {τ : Type} [Solver τ] {R : Relaxation τ → Relaxation τ → Prop} [IsPreorder (Relaxation τ) R]

theorem along_getColumn (c : ColumnRef) : Along R (getColumn c : RelaxationM τ Column) := by
  intro lp
  exact ends_getColumn.mpr (refl lp)

theorem along_getRow (r : RowRef) : Along R (getRow r : RelaxationM τ Row) := by
  intro lp
  exact ends_getRow_iff.mpr ⟨fun _ _ => refl lp, fun _ => refl lp⟩

theorem along_askSolver (f : τ → Except SolverError α) : Along R (askSolver f) := by
  intro lp
  exact ends_askSolver_iff.mpr ⟨fun _ _ => refl lp, fun _ _ => refl lp⟩

end Relaxation

end CertifiedLp
