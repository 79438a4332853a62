import Mathlib
import CertifiedLp.Proofs.Run

/-!
# Taking up an operation again

An operation that fails may have done a part of its work. It *resumes* if the rest can be done later:
however often a run failed, the run that returns in the end leaves what a run that returns at once
leaves. Both are compared up to a relation that ignores what does not count.

Such an operation is a sequence of phases. To repeat a phase that is done changes nothing that counts.
So a run that is taken up again passes through the phases that are done, and goes on with the one
that failed.
-/

namespace CertifiedLp

variable {ε σ α β : Type}

section Runs

variable {x : ExceptT ε (StateM σ) α} {f : α → ExceptT ε (StateM σ) β} {s t u : σ} {b : β}

theorem run_get_bind (f : σ → ExceptT ε (StateM σ) β) (s : σ) :
    (MonadState.get >>= f).run.run s = (f s).run.run s := rfl

theorem run_bind_eq_ok : (x >>= f).run.run s = (.ok b, u) ↔
    ∃ a t, x.run.run s = (.ok a, t) ∧ (f a).run.run t = (.ok b, u) := by
  simp only [ExceptT.run_bind, StateT.run_bind]
  generalize x.run.run s = y
  rcases y with ⟨_ | a, t⟩
  · constructor
    · intro h
      cases congrArg (·.1) h
    · rintro ⟨_, _, h, _⟩
      cases h
  · refine ⟨fun h => ⟨a, t, rfl, h⟩, ?_⟩
    rintro ⟨_, _, ⟨⟩, hf⟩
    exact hf

end Runs

/-! ## Two runs side by side -/

/-- Where two runs from related states both return, they return the same, and the states are related
again. -/
def Twin (R R' : σ → σ → Prop) (x y : ExceptT ε (StateM σ) α) : Prop :=
  ∀ ⦃s t a b s' t'⦄, R s t → x.run.run s = (.ok a, s') → y.run.run t = (.ok b, t') →
    a = b ∧ R' s' t'

namespace Twin

variable {R R' R'' : σ → σ → Prop} {x y : ExceptT ε (StateM σ) α}
variable {f g : α → ExceptT ε (StateM σ) β}

theorem pure (h : ∀ s t, R s t → R' s t) (a : α) :
    Twin R R' (Pure.pure a : ExceptT ε (StateM σ) α) (Pure.pure a) := by
  intro s t _ _ s' t' hst hs ht
  cases hs
  cases ht
  exact ⟨rfl, h s t hst⟩

theorem throw (e : ε) : Twin R R' (MonadExcept.throw e) y := by
  intro _ _ _ _ _ _ _ hs
  cases hs

/-- Nothing is done after an error. -/
theorem throw_bind {e : ε} {y : ExceptT ε (StateM σ) β} :
    Twin R R' ((MonadExcept.throw e : ExceptT ε (StateM σ) α) >>= f) y := by
  intro _ _ _ _ _ _ _ hs
  cases hs

theorem liftM (x : Except ε α) :
    Twin R R (MonadLiftT.monadLift x : ExceptT ε (StateM σ) α) (MonadLiftT.monadLift x) := by
  cases x with
  | error e => exact .throw e
  | ok a => exact .pure (fun _ _ => id) a

theorem modify {f g : σ → σ} (h : ∀ s t, R s t → R' (f s) (g t)) :
    Twin R R' (modify f : ExceptT ε (StateM σ) PUnit) (modify g) := by
  intro s t _ _ s' t' hst hs ht
  cases hs
  cases ht
  exact ⟨rfl, h s t hst⟩

theorem bind (h : Twin R R' x y) (hf : ∀ a, Twin R' R'' (f a) (g a)) :
    Twin R R'' (x >>= f) (y >>= g) := by
  intro s t _ _ s' t' hst hs ht
  obtain ⟨a, s₁, hs₁, hs⟩ := run_bind_eq_ok.mp hs
  obtain ⟨b, t₁, ht₁, ht⟩ := run_bind_eq_ok.mp ht
  obtain ⟨rfl, h₁⟩ := h hst hs₁ ht₁
  exact hf a h₁ hs ht

/-- What is done with the current state may depend on it. -/
theorem get {f g : σ → ExceptT ε (StateM σ) β} (h : ∀ s t, R s t → Twin R R' (f s) (g t)) :
    Twin R R' (MonadState.get >>= f) (MonadState.get >>= g) := by
  intro s t _ _ s' t' hst hs ht
  exact h s t hst hst hs ht

theorem ite {p : Prop} [Decidable p] {x' y' : ExceptT ε (StateM σ) α} (h : Twin R R' x y)
    (h' : Twin R R' x' y') : Twin R R' (if p then x else x') (if p then y else y') := by
  split
  · exact h
  · exact h'

theorem forIn {xs : List α} {body body' : α → PUnit → ExceptT ε (StateM σ) (ForInStep PUnit)}
    (h : ∀ x, Twin R R (body x ⟨⟩) (body' x ⟨⟩)) :
    Twin R R (forIn xs ⟨⟩ body) (forIn xs ⟨⟩ body') := by
  induction xs with
  | nil => exact .pure (fun _ _ => id) _
  | cons x xs ih =>
    rw [List.forIn_cons, List.forIn_cons]
    refine (h x).bind fun step => ?_
    cases step with
    | done _ => exact .pure (fun _ _ => id) _
    | yield _ => exact ih

end Twin

/-! ## Operations that ignore a part of the state -/

/-- An operation does the same after another change of the state, which it keeps. -/
def Commutes (g : σ → σ) (x : ExceptT ε (StateM σ) α) : Prop :=
  ∀ s, x.run.run (g s) = ((x.run.run s).1, g (x.run.run s).2)

namespace Commutes

variable {g : σ → σ} {x y : ExceptT ε (StateM σ) α} {f : α → ExceptT ε (StateM σ) β}

theorem pure (a : α) : Commutes g (Pure.pure a : ExceptT ε (StateM σ) α) := fun _ => rfl

theorem liftM (x : Except ε α) :
    Commutes g (MonadLiftT.monadLift x : ExceptT ε (StateM σ) α) := by
  cases x <;> exact fun _ => rfl

theorem modify {h : σ → σ} (hg : ∀ s, h (g s) = g (h s)) :
    Commutes g (modify h : ExceptT ε (StateM σ) PUnit) := fun s =>
  Prod.ext rfl (hg s)

theorem bind (hx : Commutes g x) (hf : ∀ a, Commutes g (f a)) : Commutes g (x >>= f) := by
  intro s
  simp only [ExceptT.run_bind, StateT.run_bind]
  rw [hx s]
  generalize x.run.run s = y
  rcases y with ⟨_ | a, t⟩
  · rfl
  · exact hf a t

/-- What is done with the current state may depend on it, but not on what is ignored. -/
theorem get {f : σ → ExceptT ε (StateM σ) β} (hf : ∀ s, Commutes g (f s))
    (hg : ∀ s, f (g s) = f s) : Commutes g (MonadState.get >>= f) := by
  intro s
  change (f (g s)).run.run (g s) = _
  rw [hg]
  exact hf s s

theorem ite {p : Prop} [Decidable p] (hx : Commutes g x) (hy : Commutes g y) :
    Commutes g (if p then x else y) := by
  split
  · exact hx
  · exact hy

/-- Nothing is done after an error. -/
theorem throw_bind {e : ε} :
    Commutes g ((MonadExcept.throw e : ExceptT ε (StateM σ) α) >>= f) := fun _ => rfl

theorem forIn {γ : Type} {xs : List α} {body : α → γ → ExceptT ε (StateM σ) (ForInStep γ)}
    (h : ∀ x acc, Commutes g (body x acc)) (acc : γ) : Commutes g (forIn xs acc body) := by
  induction xs generalizing acc with
  | nil => exact .pure acc
  | cons x xs ih =>
    rw [List.forIn_cons]
    refine (h x acc).bind fun step => ?_
    cases step with
    | done acc => exact .pure acc
    | yield acc => exact ih acc

theorem forIn_array {γ : Type} {xs : Array α} {body : α → γ → ExceptT ε (StateM σ) (ForInStep γ)}
    (h : ∀ x acc, Commutes g (body x acc)) (acc : γ) : Commutes g (ForIn.forIn xs acc body) := by
  rw [← Array.forIn_toList]
  exact forIn h acc

theorem of_ok (hx : Commutes g x) {s t : σ} {a : α} (h : x.run.run s = (.ok a, t)) :
    x.run.run (g s) = (.ok a, g t) := by
  rw [hx s, h]

end Commutes

/-! ## Phases -/

/-- The second of two runs may have been given up several times, and is taken up again. If the first
one returns, then the second one ends in a related state, or it fails once more, with an error of
kind `F`. A run that failed can be taken up again after changes that `R₀` allows. -/
def Resumes (F : ε → Prop) (R₀ R : σ → σ → Prop) (P : σ → Prop) (x : ExceptT ε (StateM σ) Unit) :
    Prop :=
  ∃ M : σ → σ → Prop, (∀ {s t}, R₀ s t → M s t) ∧ (∀ {s t u}, M s t → R₀ t u → M s u) ∧
    ∀ {s t s'}, P s → P t → M s t → x.run.run s = (.ok (), s') →
      Ends x t (fun _ t' => R s' t') fun e t' => F e ∧ M s t'

/-- An operation of which nothing remains when it fails is simply started again. -/
theorem Resumes.of_restart {F : ε → Prop} {R₀ R : σ → σ → Prop} {P : σ → Prop}
    {x : ExceptT ε (StateM σ) Unit} [IsTrans σ R₀]
    (h : ∀ {s t s'}, P s → P t → R₀ s t → x.run.run s = (.ok (), s') →
      Ends x t (fun _ t' => R s' t') fun e t' => F e ∧ R₀ t t') : Resumes F R₀ R P x :=
  ⟨R₀, id, IsTrans.trans _ _ _, fun hs ht hst hrun => (h hs ht hst hrun).mono (fun _ _ => id)
    fun _ _ ht' => ⟨ht'.1, IsTrans.trans _ _ _ hst ht'.2⟩⟩

/-- A phase is done when it returned. Then to repeat it changes nothing that counts. A phase that
failed can be taken up again. -/
structure Phase (F : ε → Prop) (R₀ R : σ → σ → Prop) (P done : σ → Prop)
    (x : ExceptT ε (StateM σ) Unit) : Prop where
  keeps : ∀ {s}, P s → Ends x s (fun _ t => P t ∧ done t) fun _ t => P t
  idle : ∀ {s}, P s → done s → Ends x s (fun _ t => R s t) fun _ _ => False
  respects : ∀ {s t}, R s t → done s → done t
  resumes : Resumes F R₀ R P x

namespace Phase

variable {F : ε → Prop} {R₀ R : σ → σ → Prop} {P done done' : σ → Prop}
variable {x y : ExceptT ε (StateM σ) Unit}

/-- After a phase comes an operation that can rely on it. If that fails, the phase is done when the two
are taken up again. -/
theorem resumes_bind [IsTrans σ R] (hx : Phase F R₀ R P done x)
    (hy : Resumes F R R (fun s => P s ∧ done s) y)
    (hkeeps : ∀ {s}, P s → done s →
      Ends y s (fun _ t => P t ∧ done t) fun _ t => P t ∧ done t)
    (hR : ∀ {s t}, R₀ s t → R s t) : Resumes F R₀ R P (x >>= fun _ => y) := by
  obtain ⟨M, hstart, hclosed, hresumes⟩ := hx.resumes
  obtain ⟨N, hstart', hclosed', hresumes'⟩ := hy
  -- a run is in the first operation, or it has done that and is in the second one
  refine ⟨fun s t => M s t ∨ done t ∧ ∀ s₁, x.run.run s = (.ok (), s₁) → N s₁ t,
    fun h => .inl (hstart h), fun h htu => ?_, fun {s t s'} hs ht h hrun => ?_⟩
  · exact h.imp (hclosed · htu) fun h =>
      ⟨hx.respects (hR htu) h.1, fun s₁ hs₁ => hclosed' (h.2 s₁ hs₁) (hR htu)⟩
  obtain ⟨_, s₁, hs₁, hrun⟩ := run_bind_eq_ok.mp hrun
  have hs₁P := (hx.keeps hs).of_ok hs₁
  have hrest {t₁ : σ} (ht₁ : P t₁ ∧ done t₁) (h : N s₁ t₁) :
      Ends y t₁ (fun _ t' => R s' t') fun e t' =>
        F e ∧ (M s t' ∨ done t' ∧ ∀ s₁, x.run.run s = (.ok (), s₁) → N s₁ t') := by
    refine ((hresumes' hs₁P ht₁ h hrun).and (hkeeps ht₁.1 ht₁.2)).mono (fun _ _ h => h.1)
      fun _ t' h => ⟨h.1.1, .inr ⟨h.2.2, fun s₂ hs₂ => ?_⟩⟩
    rw [hs₁] at hs₂
    cases hs₂
    exact h.1.2
  rw [Ends.bind_iff]
  rcases h with h | ⟨hdone, h⟩
  · refine ((hresumes hs ht h hs₁).and (hx.keeps ht)).mono (fun _ t₁ ht₁ => ?_)
      fun _ _ ht₁ => ⟨ht₁.1.1, .inl ht₁.1.2⟩
    exact hrest ht₁.2 (hstart' ht₁.1)
  · refine ((hx.idle ht hdone).and (hx.keeps ht)).mono (fun _ t₁ ht₁ => ?_)
      fun _ _ ht₁ => ht₁.1.elim
    exact hrest ht₁.2 (hclosed' (h s₁ hs₁) ht₁.1)

/-- A phase that keeps something else can rely on that. -/
theorem restrict {I : σ → Prop} (hx : Phase F R₀ R P done x)
    (hI : ∀ {s}, P s → I s → Ends x s (fun _ t => I t) fun _ t => I t) :
    Phase F R₀ R (fun s => P s ∧ I s) done x where
  keeps hs := ((hx.keeps hs.1).and (hI hs.1 hs.2)).mono
    (fun _ _ ht => ⟨⟨ht.1.1, ht.2⟩, ht.1.2⟩) fun _ _ ht => ht
  idle hs := hx.idle hs.1
  respects := hx.respects
  resumes := by
    obtain ⟨M, hstart, hclosed, hresumes⟩ := hx.resumes
    exact ⟨M, hstart, hclosed, fun hs ht => hresumes hs.1 ht.1⟩

/-- What holds before a phase may be said in another way. -/
theorem congr {P' : σ → Prop} (hx : Phase F R₀ R P done x) (h : ∀ s, P s ↔ P' s) :
    Phase F R₀ R P' done x := by
  have heq : P = P' := funext fun s => propext (h s)
  exact heq ▸ hx

/-- Two phases, one after the other, are one phase. -/
theorem bind [IsTrans σ R] (hx : Phase F R₀ R P done x)
    (hy : Phase F R R (fun s => P s ∧ done s) done' y) (hR : ∀ {s t}, R₀ s t → R s t) :
    Phase F R₀ R P (fun s => done s ∧ done' s) (x >>= fun _ => y) where
  keeps hs := Ends.bind_iff.mpr <| (hx.keeps hs).mono_ok fun _ _ ht =>
    (hy.keeps ht).mono (fun _ _ hu => ⟨hu.1.1, hu.1.2, hu.2⟩) fun _ _ hu => hu.1
  idle hs hdone := Ends.bind_iff.mpr <|
    ((hx.idle hs hdone.1).and (hx.keeps hs)).mono (fun _ _ ht =>
      (hy.idle ht.2 (hy.respects ht.1 hdone.2)).mono_ok fun _ _ hu => IsTrans.trans _ _ _ ht.1 hu)
      fun _ _ ht => ht.1
  respects h hdone := ⟨hx.respects h hdone.1, hy.respects h hdone.2⟩
  resumes := hx.resumes_bind hy.resumes
    (fun hs hdone => (hy.keeps ⟨hs, hdone⟩).mono_ok fun _ _ h => h.1) hR

end Phase

end CertifiedLp
