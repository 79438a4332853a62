import Mathlib
import CertifiedLp.Proofs.Along
import CertifiedLp.Proofs.Resuming
import CertifiedLp.Proofs.Solver.Sizes

/-!
# What a solver holds

A solver holds a linear program, whatever else it keeps. What a call that succeeds makes of the linear
program depends on the linear program and the arguments of the call only. What a call that fails
leaves is a parameter; the calls of a transactional solver fail without an effect on the linear program.
-/

namespace CertifiedLp

namespace Solver

variable {σ H : Type} [Solver σ] {held : σ → H} {failed : σ → σ → Prop}

/-- Two states of a solver hold the same. -/
def HoldSame (held : σ → H) (s t : σ) : Prop := held t = held s

omit [Solver σ] in
instance : IsPreorder σ (HoldSame held) where
  refl _ := rfl
  trans _ _ _ h h' := h'.trans h

/-- What a call that succeeds makes of what is held depends on that only, and it leaves alone what
counts as infinite. -/
structure Determines (held : σ → H) (failed : σ → σ → Prop) (x : SolverM σ Unit) : Prop where
  ends : ∀ s, Ends x s (fun _ t => infinity t = infinity s) fun _ t => failed s t
  twin : Twin (HoldSame held) (HoldSame held) x x

/-- All calls that change what is held do so in a way that is determined by what is held. To replace
objective coefficients once more by the same values changes nothing, and neither does a restart. -/
structure Determined (held : σ → H) (failed : σ → σ → Prop) : Prop where
  infinity : ∀ {s t : σ}, held t = held s → infinity t = infinity s
  nrColumns : ∀ {s t : σ}, held t = held s → nrColumns t = nrColumns s
  nrRows : ∀ {s t : σ}, held t = held s → nrRows t = nrRows s
  addColumns (batch : ColumnBatch) : Determines held failed (Solver.addColumns batch)
  addRows (batch : RowBatch) : Determines held failed (Solver.addRows batch)
  deleteColumns (first last : Nat) : Determines held failed (Solver.deleteColumns first last)
  deleteRows (first last : Nat) : Determines held failed (Solver.deleteRows first last)
  changeObjective (columns : Array Nat) (values : Array Extended) :
    Determines held failed (Solver.changeObjective columns values)
  changeObjective_again (columns : Array Nat) (values : Array Extended) {s t u : σ}
    (h : (Solver.changeObjective columns values).run.run s = (.ok (), t)) (hu : held u = held t) :
    Ends (Solver.changeObjective columns values) u (fun _ v => held v = held u) fun _ _ => True
  changeBounds (columns : Array Nat) (lower upper : Array Extended) :
    Determines held failed (Solver.changeBounds columns lower upper)
  changeSides (rows : Array Nat) (lhs rhs : Array Extended) :
    Determines held failed (Solver.changeSides rows lhs rhs)
  setInt (parameter : IntParameter) (value : Int) :
    Determines held failed (Solver.setInt parameter value)
  restore (snapshot : Snapshot σ) (s : σ) :
    Ends (Solver.restore snapshot) s (fun _ t => held t = held s) fun _ t => failed s t

/-- Failing calls have no effect on what a solver holds. -/
def Transactional (held : σ → H) : Prop := Determined held (HoldSame held)

theorem Determined.encode (h : Determined held failed) {s t : σ} (hst : held t = held s)
    (x : Extended) : encode t x = encode s x := by
  cases x <;> simp only [Solver.encode, h.infinity hst]

theorem Transactional.restore (h : Transactional held) (snapshot : Snapshot σ) :
    Along (HoldSame held) (Solver.restore snapshot : SolverM σ Unit) := fun s =>
  Determined.restore h snapshot s

end Solver

/-! ## Failing without effect -/

namespace Atomic

open Solver (Determined Determines HoldSame Transactional)

variable {σ H : Type} [Solver σ] {held : σ → H} {failed : σ → σ → Prop} {x : SolverM σ Unit}

omit [Solver σ] in
theorem run_atomically_eq_ok {s t : Atomic σ} (h : (atomically x).run.run s = (.ok (), t)) :
    x.run.run s.inner = (.ok (), t.inner) := by
  have hends : Ends (atomically x) s (fun _ u => x.run.run s.inner = (.ok (), u.inner))
      fun _ _ => True :=
    ends_atomically.mpr ((Ends.self x s.inner).mono (fun _ _ hx => hx) fun _ _ _ => trivial)
  exact hends.of_ok h

theorem determines_atomically (h : Determines held failed x) :
    Determines (fun s : Atomic σ => held s.inner) (HoldSame fun s => held s.inner)
      (atomically x) where
  ends s := ends_atomically.mpr ((h.ends s.inner).mono (fun _ _ ht => ht) fun _ _ _ => rfl)
  twin _ _ _ _ _ _ hst hs ht :=
    h.twin hst (run_atomically_eq_ok hs) (run_atomically_eq_ok ht)

/-- Whatever failing calls of a solver leave behind, this makes them fail without effect. -/
theorem transactional (h : Determined held failed) :
    Transactional fun s : Atomic σ => held s.inner where
  infinity := h.infinity
  nrColumns := h.nrColumns
  nrRows := h.nrRows
  addColumns batch := determines_atomically (h.addColumns batch)
  addRows batch := determines_atomically (h.addRows batch)
  deleteColumns first last := determines_atomically (h.deleteColumns first last)
  deleteRows first last := determines_atomically (h.deleteRows first last)
  changeObjective columns values := determines_atomically (h.changeObjective columns values)
  changeObjective_again columns values s t u hrun hu := by
    have hagain := h.changeObjective_again columns values (run_atomically_eq_ok hrun) hu
    exact ends_atomically.mpr (hagain.mono (fun _ _ hv => hv) fun _ _ _ => trivial)
  changeBounds columns lower upper := determines_atomically (h.changeBounds columns lower upper)
  changeSides rows lhs rhs := determines_atomically (h.changeSides rows lhs rhs)
  setInt parameter value := determines_atomically (h.setInt parameter value)
  restore snapshot s :=
    ends_atomically.mpr ((h.restore snapshot s.inner).mono (fun _ _ ht => ht) fun _ _ _ => rfl)

end Atomic

/-! ## Failing as a script says -/

namespace Scripted

open Solver (Determines HoldSame Transactional)

variable {σ H : Type} [Solver σ] {held : σ → H} {x : SolverM σ Unit}

/-- What a scripted solver holds: what the inner solver holds, and what counts as infinite. -/
def holds (held : σ → H) (s : Scripted σ) : Option Extended × H := (s.infinity, held s.inner)

omit [Solver σ] in
/-- A call that succeeds was left to the inner solver. -/
theorem run_perform_eq_ok {call : Call} {s t : Scripted σ}
    (h : (perform call x).run.run s = (.ok (), t)) :
    x.run.run s.inner = (.ok (), t.inner) ∧ t.infinity = s.infinity := by
  have hdelegate (u : Scripted σ) : Ends (delegate x) u
      (fun _ v => x.run.run u.inner = (.ok (), v.inner) ∧ v.infinity = u.infinity)
      fun _ _ => True :=
    ends_delegate.mpr ((Ends.self x u.inner).mono (fun _ _ hx => ⟨hx, rfl⟩) fun _ _ _ => trivial)
  have hperform : Ends (perform call x) s
      (fun _ v => x.run.run s.inner = (.ok (), v.inner) ∧ v.infinity = s.infinity)
      fun _ _ => True := by
    rw [perform, Ends.bind_iff, Ends.modify_iff, Ends.bind_iff, Ends.get_iff, Ends.ite_iff]
    refine ⟨fun _ => trivial, fun _ => ?_⟩
    rw [Ends.ite_iff]
    exact ⟨fun _ => Ends.bind_iff.mpr (hdelegate _), fun _ => hdelegate _⟩
  exact hperform.of_ok h

omit [Solver σ] in
/-- If a call leaves what the inner solver holds alone when it fails, then so does the scripted one,
also where the script lets it fail. -/
theorem ends_perform {Q : H → Prop} {call : Call} (s : Scripted σ)
    (h : Ends x s.inner (fun _ t => Q (held t)) fun _ t => held t = held s.inner) :
    Ends (perform call x) s (fun _ t => Q (holds held t).2 ∧ (holds held t).1 = (holds held s).1)
      fun _ t => holds held t = holds held s := by
  have hdelegate (u : Scripted σ) (hu : u.inner = s.inner) (hinfinity : u.infinity = s.infinity) :
      Ends (delegate x) u (fun _ t => Q (holds held t).2 ∧ (holds held t).1 = (holds held s).1)
        fun _ t => holds held t = holds held s := by
    rw [ends_delegate, hu]
    exact h.mono (fun _ _ hq => ⟨hq, hinfinity⟩) fun _ _ hs => Prod.ext hinfinity hs
  rw [perform, Ends.bind_iff, Ends.modify_iff, Ends.bind_iff, Ends.get_iff, Ends.ite_iff]
  refine ⟨fun _ => rfl, fun _ => ?_⟩
  rw [Ends.ite_iff]
  exact ⟨fun _ => Ends.bind_iff.mpr (hdelegate _ rfl rfl), fun _ => hdelegate _ rfl rfl⟩

theorem determines_perform {call : Call} (h : Determines held (HoldSame held) x) :
    Determines (holds held) (HoldSame (holds held)) (perform call x) where
  ends s := by
    have hfails : Ends (perform call x) s (fun _ _ => True)
        fun _ t => holds held t = holds held s :=
      (ends_perform (Q := fun _ => True) s ((h.ends s.inner).mono_ok fun _ _ _ => trivial)).mono_ok
        fun _ _ _ => trivial
    refine (hfails.and (Ends.self _ s)).mono (fun _ t ht => ?_) fun _ _ ht => ht.1
    obtain ⟨hinner, hinfinity⟩ := run_perform_eq_ok ht.2
    rw [show Solver.infinity t = t.infinity.getD (Solver.infinity t.inner) from rfl, hinfinity,
      (h.ends s.inner).of_ok hinner]
    rfl
  twin s t _ _ s' t' hst hs ht := by
    obtain ⟨hs, hsInfinity⟩ := run_perform_eq_ok hs
    obtain ⟨ht, htInfinity⟩ := run_perform_eq_ok ht
    obtain ⟨-, hheld⟩ := h.twin (congrArg Prod.snd hst) hs ht
    refine ⟨rfl, Prod.ext ?_ hheld⟩
    exact htInfinity.trans ((congrArg Prod.fst hst).trans hsInfinity.symm)

/-- A script may let any call fail. -/
theorem transactional (h : Transactional held) : Transactional (holds held) where
  infinity {s t} hst := by
    have hinner := h.infinity (congrArg Prod.snd hst)
    have hown : t.infinity = s.infinity := congrArg Prod.fst hst
    rw [show Solver.infinity t = t.infinity.getD (Solver.infinity t.inner) from rfl, hown, hinner]
    rfl
  nrColumns hst := h.nrColumns (congrArg Prod.snd hst)
  nrRows hst := h.nrRows (congrArg Prod.snd hst)
  addColumns batch := determines_perform (h.addColumns batch)
  addRows batch := determines_perform (h.addRows batch)
  deleteColumns first last := determines_perform (h.deleteColumns first last)
  deleteRows first last := determines_perform (h.deleteRows first last)
  changeObjective columns values := determines_perform (h.changeObjective columns values)
  changeObjective_again columns values s t u hrun hu := by
    have hagain := h.changeObjective_again columns values (run_perform_eq_ok hrun).1
      (congrArg Prod.snd hu)
    refine (Ends.self _ u).mono (fun _ v hv => ?_) fun _ _ _ => trivial
    obtain ⟨hinner, hinfinity⟩ := run_perform_eq_ok hv
    exact Prod.ext hinfinity (hagain.of_ok hinner)
  changeBounds columns lower upper := determines_perform (h.changeBounds columns lower upper)
  changeSides rows lhs rhs := determines_perform (h.changeSides rows lhs rhs)
  setInt parameter value := determines_perform (h.setInt parameter value)
  restore snapshot s := (ends_perform (Q := fun k => k = held s.inner) s
    (Transactional.restore h snapshot s.inner)).mono_ok fun _ _ ht => Prod.ext ht.2 ht.1

end Scripted

end CertifiedLp
