import Mathlib
import CertifiedLp.Proofs.Relaxation.Awareness
import CertifiedLp.Proofs.Relaxation.Mirroring

/-!
# How long rows live

A row is used by the caller, any number of times, and once by the active linear program while it is
there. These uses, counted apart, add up to the number that the row keeps, whatever is done and also
where it fails. So a row is freed when the last of them is given up, which is never while it is
active, and the rows that leave the active linear program can always be released.
-/

namespace CertifiedLp

namespace ConstraintMatrix

variable {m m' : ConstraintMatrix} {f : Row → Row}

theorem uses_congr (h : m'.rows = m.rows) (r : RowRef) : m'.uses r = m.uses r := by
  rw [uses, uses, row?, row?, h]

theorem uses_modifyRows (hf : ∀ row, (f row).nrUses = row.nrUses) (m : ConstraintMatrix)
    (rs : List RowRef) (s : RowRef) : (m.modifyRows rs f).uses s = m.uses s := by
  induction rs using List.reverseRecOn with
  | nil => rfl
  | append_singleton rs r ih => rw [modifyRows_concat, uses_modifyRow hf, ih]

theorem uses_attachRows (m : ConstraintMatrix) (xs : List (RowRef × Nat)) (s : RowRef) :
    (m.attachRows xs).uses s = m.uses s := by
  induction xs using List.reverseRecOn with
  | nil => rfl
  | append_singleton xs x ih =>
    rw [attachRows_concat, ← ih]
    refine (uses_congr rfl s).trans (uses_modifyRow (f := (·.attach x.2)) ?_ (m.attachRows xs) x.1 s)
    exact fun _ => rfl

theorem uses_dropRows (m : ConstraintMatrix) (first : Nat) (s : RowRef) :
    (m.dropRows first).uses s = m.uses s :=
  (uses_congr rfl s).trans (uses_modifyRows (f := Row.detach) (fun _ => rfl) m _ s)

end ConstraintMatrix

namespace Relaxation

variable {σ : Type} [Solver σ] {lp t : Relaxation σ} {r : RowRef} {α : Type}
variable {a : Action} {actions : List Action} {solver : σ} {settings : Settings}

/-! ## Uses and rows -/

theorem Coherent.uses_eq_zero_iff (hlp : lp.Coherent) :
    lp.matrix.uses r = 0 ↔ lp.matrix.row? r = none := by
  rw [← ConstraintMatrix.uses_places, Places.uses_eq_zero_iff hlp.placed.used,
    ← Option.not_isSome_iff_eq_none, ConstraintMatrix.isSome_row_places,
    Option.not_isSome_iff_eq_none]

theorem Coherent.uses_pos (hlp : lp.Coherent) (hr : (lp.matrix.row? r).isSome = true) :
    0 < lp.matrix.uses r := by
  refine Nat.pos_of_ne_zero fun hzero => ?_
  rw [hlp.uses_eq_zero_iff.mp hzero] at hr
  cases hr

theorem share_eq_one_iff : lp.share r = 1 ↔ r ∈ lp.rows := by
  rw [share]
  split <;> simp [*]

theorem share_eq_zero_iff : lp.share r = 0 ↔ r ∉ lp.rows := by
  rw [share]
  split <;> simp [*]

/-- An active row has the use that the active linear program has of it. -/
theorem Coherent.share_le_uses (hlp : lp.Coherent) (r : RowRef) :
    lp.share r ≤ lp.matrix.uses r := by
  rw [share]
  split
  · next hr =>
    refine hlp.uses_pos ?_
    rw [← ConstraintMatrix.isSome_row_places]
    exact Places.isSome_row_of_mem hlp.placed.rows hr
  · exact Nat.zero_le _

theorem Coherent.activeRow_eq_none_iff (hlp : lp.Coherent) :
    lp.matrix.places.activeRow r = none ↔ r ∉ lp.rows := by
  refine ⟨fun hnone hr => ?_, hlp.placed.rows.position_eq_none trivial⟩
  have hsome := hlp.placed.rows.isSome_of_mem trivial hr
  rw [hnone] at hsome
  cases hsome

/-! ## Operations that trade no uses -/

/-- A relaxation remains coherent, and no use changes hands. -/
def Balances (lp t : Relaxation σ) : Prop := lp.Coherent → t.Coherent ∧ Balanced lp t

instance : IsPreorder (Relaxation σ) Balances where
  refl lp hlp := ⟨hlp, refl lp⟩
  trans _ _ _ h h' hlp :=
    ⟨(h' (h hlp).1).1, IsTrans.trans _ _ _ (h hlp).2 (h' (h hlp).1).2⟩

theorem along_balances {x : RelaxationM σ α}
    (h : ∀ lp : Relaxation σ, lp.Coherent →
      Ends x lp (fun _ t => t.Coherent ∧ Balanced lp t) fun _ t => t.Coherent ∧ Balanced lp t) :
    Along Balances x := by
  intro lp
  by_cases hlp : lp.Coherent
  · exact (h lp hlp).mono (fun _ _ ht _ => ht) fun _ _ ht _ => ht
  · exact (Ends.self x lp).mono (fun _ _ _ hcoherent => (hlp hcoherent).elim)
      fun _ _ _ hcoherent => (hlp hcoherent).elim

theorem Quiet.balances (h : Quiet lp t) : Balances lp t := fun hlp =>
  ⟨(h.carries hlp).coherent, h.unmoved.balanced⟩

/-! ### Bringing the solver up to date -/

theorem balanced_syncDeletedColumns : Along Balanced (syncDeletedColumns : RelaxationM σ Unit) := by
  refine fun lp => (ends_syncDeletedColumns_exactly lp).mono ?_ ?_
  · rintro _ _ ⟨s, flags, status, -, rfl⟩
    exact balanced_of_uses (fun _ => rfl) rfl
  · rintro _ _ ⟨s, -, rfl⟩
    exact balanced_of_uses (fun _ => rfl) rfl

theorem balanced_syncDeletedRows : Along Balanced (syncDeletedRows : RelaxationM σ Unit) := by
  refine fun lp => (ends_syncDeletedRows_exactly lp).mono ?_ ?_
  · rintro _ _ ⟨s, flags, status, -, rfl⟩
    exact balanced_of_uses (lp.matrix.uses_dropRows _) rfl
  · rintro _ _ ⟨s, -, rfl⟩
    exact balanced_of_uses (fun _ => rfl) rfl

theorem Coherent.ends_syncAddedColumns_balanced (hlp : lp.Coherent) :
    Ends syncAddedColumns lp (fun _ t => Balanced lp t) fun _ t => Balanced lp t := by
  by_cases hnone : lp.matrix.solverColumns.size = lp.columns.size
  · refine (ends_syncAddedColumns_none hnone).mono_ok ?_
    rintro _ _ rfl
    exact balanced_of_uses (fun _ => rfl) rfl
  have hlinked := ConstraintMatrix.Stays.of_entries
    (hlp.sound.linkColumns lp.newColumns).without
  refine (ends_syncAddedColumns_exactly hlp hnone).mono ?_ ?_
  · rintro _ _ ⟨s, flags, status, -, rfl⟩
    exact balanced_of_uses hlinked.uses rfl
  · rintro _ _ ⟨s, -, rfl⟩
    exact balanced_of_uses hlinked.uses rfl

theorem Coherent.ends_syncAddedRows_balanced (hlp : lp.Coherent) :
    Ends syncAddedRows lp (fun _ t => Balanced lp t) fun _ t => Balanced lp t := by
  by_cases hnone : lp.matrix.solverRows.size = lp.rows.size
  · refine (ends_syncAddedRows_none hnone).mono_ok ?_
    rintro _ _ rfl
    exact balanced_of_uses (fun _ => rfl) rfl
  have hlinked := ConstraintMatrix.Stays.of_entries
    (hlp.sound.linkRows hlp.live_newRows).without
  refine (ends_syncAddedRows_exactly hlp hnone).mono ?_ ?_
  · rintro _ _ ⟨s, flags, status, -, rfl⟩
    refine balanced_of_uses (fun r => ?_) rfl
    exact (ConstraintMatrix.uses_congr rfl r).trans
      ((ConstraintMatrix.uses_attachRows _ _ r).trans (hlinked.uses r))
  · rintro _ _ ⟨s, -, rfl⟩
    exact balanced_of_uses hlinked.uses rfl

/-- Solves and dives trade no uses: at the end of a dive, the active linear program gives up its own
uses of the rows that it loses. -/
theorem bears_balances : Bears (Balances : Relaxation σ → Relaxation σ → Prop) := by
  refine bears_of_quiet Quiet.balances (along_balances fun lp hlp => ?_) fun size => ?_
  · have hquiet {x : RelaxationM σ Unit} (hx : Along Quiet x) : Along Balanced x :=
      hx.mono fun _ _ h => h.unmoved.balanced
    exact (hlp.ends_sync_along balanced_syncDeletedColumns balanced_syncDeletedRows
      (hquiet quiet_syncChangedColumns) (hquiet quiet_syncChangedRows)
      (fun _ ht => ht.ends_syncAddedColumns_balanced) (fun _ ht => ht.ends_syncAddedRows_balanced)
      fun _ => balanced_of_uses (fun _ => rfl) rfl).mono
        (fun _ _ h => ⟨h.1.coherent, h.2⟩) fun _ _ h => ⟨h.1.coherent, h.2⟩
  · exact along_balances fun _ hlp => (ends_shrinkRows_balanced hlp size).mono
      (fun _ _ h => ⟨h.1.coherent, h.2⟩) fun _ _ h => h.elim

/-! ## Trading uses -/

/-- What an operation does to the uses: some are taken, others are given up, and all else is balanced.
Only uses that the active linear program does not need are given up, and where any use changes hands,
no row enters or leaves. -/
structure Trades (lp t : Relaxation σ) (taken given : RowRef → Nat) : Prop where
  uses : ∀ r, t.matrix.uses r + lp.share r + given r = lp.matrix.uses r + t.share r + taken r
  spare : ∀ r, given r + lp.share r ≤ lp.matrix.uses r
  rows : ∀ r, taken r ≠ 0 ∨ given r ≠ 0 → t.rows = lp.rows

/-- One use of a single row. -/
def oneOf (r : RowRef) : RowRef → Nat := fun s => if s = r then 1 else 0

theorem Coherent.trades (hlp : lp.Coherent) (h : Balanced lp t) :
    Trades lp t (fun _ => 0) fun _ => 0 where
  uses r := h r
  spare r := by
    rw [Nat.zero_add]
    exact hlp.share_le_uses r
  rows _ hr := by simp at hr

theorem Coherent.trades_refl (hlp : lp.Coherent) : Trades lp lp (fun _ => 0) fun _ => 0 :=
  hlp.trades (refl lp)

/-- One use of a row is taken. -/
theorem Coherent.trades_taken (hlp : lp.Coherent) (hrows : t.rows = lp.rows)
    (huses : ∀ s, t.matrix.uses s = lp.matrix.uses s + oneOf r s) :
    Trades lp t (oneOf r) fun _ => 0 where
  uses s := by
    rw [huses, share, share, hrows]
    omega
  spare s := by
    rw [Nat.zero_add]
    exact hlp.share_le_uses s
  rows _ _ := hrows

/-- A new row has the use of the caller. -/
theorem Coherent.ends_createRow_trades (hlp : lp.Coherent) (name : String) (spec : RowSpec) :
    Ends (createRow name spec) lp
      (fun _ t => Trades lp t (oneOf ⟨lp.matrix.rows.size⟩) fun _ => 0) fun _ t => t = lp := by
  rw [ends_createRow_iff]
  refine ⟨fun _ => rfl, fun _ => hlp.trades_taken rfl fun s => ?_⟩
  rw [← ConstraintMatrix.uses_places, (hlp.sound.pushRow name spec).2.1, Places.uses_pushRow,
    ConstraintMatrix.uses_places, oneOf]
  by_cases hs : s.index = lp.matrix.rows.size
  · have hnew : lp.matrix.uses s = 0 :=
      hlp.uses_eq_zero_iff.mpr (ConstraintMatrix.row?_of_size_le hs.symm.le)
    have heq : s = ⟨lp.matrix.rows.size⟩ := Reference.index_injective hs
    rw [if_pos heq, hnew]
    exact if_pos hs
  · have hne : s ≠ ⟨lp.matrix.rows.size⟩ := fun heq => hs (heq ▸ rfl)
    rw [if_neg hne]
    exact if_neg hs

theorem Coherent.ends_captureRow_trades (hlp : lp.Coherent) (r : RowRef) :
    Ends (captureRow r) lp (fun _ t => Trades lp t (oneOf r) fun _ => 0) fun _ t => t = lp := by
  rw [captureRow, updateRow, ends_onMatrix, ConstraintMatrix.ends_updateRow_iff]
  refine ⟨fun hr => hlp.trades_taken rfl fun s => ?_, fun _ => rfl⟩
  have hplaces := lp.matrix.places_modifyRow r (g := fun place =>
      { place with nrUses := place.nrUses + 1 })
    (f := fun row => { row with nrUses := row.nrUses + 1 }) fun _ => rfl
  rw [← ConstraintMatrix.isSome_row_places] at hr
  rw [← ConstraintMatrix.uses_places, hplaces,
    Places.uses_modifyRow hr _ (· + 1) fun _ => rfl, ConstraintMatrix.uses_places, oneOf]
  split <;> rfl

/-- A use is given up if the row exists, unless it is the last one and the active linear program has
it. -/
theorem Coherent.ends_releaseRow_trades (hlp : lp.Coherent) (r : RowRef) :
    Ends (releaseRow r) lp (fun _ t => Trades lp t (fun _ => 0) (oneOf r))
      fun _ t => t = lp ∧ ((lp.matrix.row? r).isSome = true → r ∈ lp.rows) := by
  cases hrow : lp.matrix.row? r with
  | none =>
    rw [releaseRow, Ends.bind_iff, ends_getRow_missing hrow]
    exact ⟨rfl, fun h => by cases h⟩
  | some row =>
    have hlive : (lp.matrix.row? r).isSome = true := by rw [hrow]; rfl
    have hpositive := hlp.uses_pos hlive
    have hshare := hlp.share_le_uses r
    refine ((relocates_refl hlp.sound).ends_releaseRow hlp.placed.used
      (ConstraintMatrix.row_places hrow)).mono ?_ ?_
    · rintro _ t ⟨ht, hguard⟩
      have huses (s : RowRef) : t.matrix.uses s + oneOf r s = lp.matrix.uses s := by
        rw [← ConstraintMatrix.uses_places, ht.matrix.places, Places.uses_release,
          ConstraintMatrix.uses_places, oneOf]
        split
        · next heq =>
          subst heq
          omega
        · rfl
      rw [ConstraintMatrix.uses_places, hlp.activeRow_eq_none_iff] at hguard
      refine ⟨fun s => ?_, fun s => ?_, fun _ _ => ht.rows⟩
      · have := huses s
        rw [show t.share s = lp.share s by rw [share, share, ht.rows]]
        omega
      · by_cases hs : s = r
        · subst hs
          rw [oneOf, if_pos rfl, share] at *
          split
          · next hmem =>
            have hmore : lp.matrix.uses s ≠ 1 := fun hlast => hguard hlast hmem
            omega
          · exact hpositive
        · rw [oneOf, if_neg hs, Nat.zero_add]
          exact hlp.share_le_uses s
    · rintro _ t ⟨rfl, -, hactive⟩
      exact ⟨rfl, fun _ => not_not.mp fun hout => hactive (hlp.activeRow_eq_none_iff.mpr hout)⟩

/-! ## Actions -/

/-- The uses that the caller takes with an action. -/
def taken (lp : Relaxation σ) (a : Action) : RowRef → Nat :=
  match a with
  | .createRow _ _ => if lp.accepts (perform a) then oneOf ⟨lp.matrix.rows.size⟩ else fun _ => 0
  | .captureRow r => if lp.accepts (perform a) then oneOf r else fun _ => 0
  | _ => fun _ => 0

/-- The uses that the caller gives up with an action. -/
def given (lp : Relaxation σ) (a : Action) : RowRef → Nat :=
  match a with
  | .releaseRow r => if lp.accepts (perform a) then oneOf r else fun _ => 0
  | _ => fun _ => 0

/-- All columns and rows leave the active linear program. -/
theorem ends_clear (hlp : lp.Coherent) :
    Ends clear lp (fun _ t => t.Coherent ∧ Balanced lp t) fun _ _ => False := by
  rw [clear, Ends.bind_iff]
  refine (ends_shrinkColumns_balanced hlp 0).mono_ok fun _ t ht => ?_
  exact (ends_shrinkRows_balanced ht.1.coherent 0).mono_ok fun _ _ hu =>
    ⟨hu.1.coherent, IsTrans.trans _ _ _ ht.2 hu.2⟩

/-- No use changes hands where rows are neither created nor captured or released by the caller. -/
theorem Coherent.ends_balanced (hlp : lp.Coherent) (ha : lp.Permits a)
    (hcreate : ∀ name spec, a ≠ .createRow name spec) (hcapture : ∀ r, a ≠ .captureRow r)
    (hrelease : ∀ r, a ≠ .releaseRow r) :
    Ends (Relaxation.perform a) lp (fun _ t => Balanced lp t) fun _ t => Balanced lp t := by
  have hquiet {x : RelaxationM σ Unit} (hx : Along Quiet x) :
      Ends x lp (fun _ t => Balanced lp t) fun _ t => Balanced lp t :=
    (hx lp).mono (fun _ _ h => h.unmoved.balanced) fun _ _ h => h.unmoved.balanced
  have hlong {x : RelaxationM σ Unit} (hx : Along Balances x) :
      Ends x lp (fun _ t => Balanced lp t) fun _ t => Balanced lp t :=
    (hx lp).mono (fun _ _ h => (h hlp).2) fun _ _ h => (h hlp).2
  cases a with
  | setSettings settings => exact hquiet (quiet_setSettings settings)
  | setCutoff cutoff => exact hquiet (quiet_setCutoff cutoff)
  | createColumn problem x =>
    refine Ends.bind_iff.mpr ((ends_createColumn hlp problem x).mono (fun _ _ h => h.2) ?_)
    rintro _ _ rfl
    exact balanced_of_uses (fun _ => rfl) rfl
  | createRow name spec => exact (hcreate name spec rfl).elim
  | captureRow r => exact (hcapture r rfl).elim
  | releaseRow r => exact (hrelease r rfl).elim
  | lockRow r => exact hquiet (quiet_lockRow r)
  | unlockRow r => exact hquiet (quiet_unlockRow r)
  | addColumn c =>
    refine (ends_addColumn_balanced hlp (ha c List.mem_cons_self)).mono (fun _ _ h => h.2) ?_
    rintro _ _ rfl
    exact balanced_of_uses (fun _ => rfl) rfl
  | addRow r => exact (ends_addRow_balanced hlp r).mono (fun _ _ h => h.2) fun _ _ h => h.1.2
  | shrinkColumns size =>
    exact (ends_shrinkColumns_balanced hlp size).mono (fun _ _ h => h.2) fun _ _ h => h.elim
  | shrinkRows size =>
    exact (ends_shrinkRows_balanced hlp size).mono (fun _ _ h => h.2) fun _ _ h => h.elim
  | deleteRows mask =>
    refine (ends_deleteRows_balanced hlp mask).mono (fun _ _ h => h.2) ?_
    rintro _ _ ⟨rfl, -⟩
    exact balanced_of_uses (fun _ => rfl) rfl
  | clear => exact (ends_clear hlp).mono (fun _ _ h => h.2) fun _ _ h => h.elim
  | changeObjective c objective => exact hquiet (admitsChanges_quiet.changeObjective c objective)
  | changeBound c side value => exact hquiet (admitsChanges_quiet.changeBound c side value)
  | changeSide r side value => exact hquiet (admitsChanges_quiet.changeSide r side value)
  | changeConstant r constant => exact hquiet (admitsChanges_quiet.changeConstant r constant)
  | coefficient c r =>
    exact Ends.bind_iff.mpr ((hlp.ends_coefficient (ha c List.mem_cons_self) r).mono
      (fun _ _ h => h.1.balanced) fun _ _ h => h.1.balanced)
  | edit c r e =>
    cases hrow : lp.matrix.row? r with
    | none =>
      refine (ends_edit_missing hrow c e).mono (fun _ _ h => h.elim) ?_
      rintro _ _ rfl
      exact balanced_of_uses (fun _ => rfl) rfl
    | some row =>
      exact (hlp.ends_edit (ha c List.mem_cons_self) hrow e).mono
        (fun _ _ h => h.unmoved.balanced) fun _ _ h => h.unmoved.balanced
  | addCoefficientsInRow r coefficients =>
    have hrecords : lp.Records lp.matrix.amount := ⟨hlp, rfl⟩
    exact (hrecords.ends_addCoefficientsInRow (r := r) fun x hx =>
      ha x.1 (List.mem_map_of_mem hx)).mono (fun _ _ h => h.1.balanced) fun _ _ h => h.1.balanced
  | delayOrder r =>
    exact (hlp.ends_delayOrder r).mono (fun _ _ h => h.1.balanced) fun _ _ h => h.1.balanced
  | forceOrder r =>
    exact (hlp.ends_forceOrder r).mono (fun _ _ h => h.1.balanced) fun _ _ h => h.1.balanced
  | sync => exact hlong bears_balances.sync
  | solve a => exact hlong (along_forgetful (bears_balances.solve a))
  | solveAnd write a => exact hlong (along_forgetful (bears_balances.solveAnd write a))
  | storeSolution => exact hquiet quiet_storeSolution
  | restoreSolution => exact hquiet quiet_restoreSolution
  | rowActivity r => exact hquiet (along_forgetful (quiet_rowActivity r))
  | rowFeasibility r => exact hquiet (along_forgetful (quiet_rowFeasibility r))
  | startDive store => exact hlong (bears_balances.startDive store)
  | setIterationLimit limit => exact hquiet (quiet_setIterationLimit limit)
  | endDive problem => exact hlong (bears_balances.endDive problem)

/-- What every action does to the uses, whether it succeeds or not. -/
theorem Coherent.trades_perform (hlp : lp.Coherent) (ha : lp.Permits a) :
    Trades lp (lp.after (Relaxation.perform a)) (lp.taken a) (lp.given a) := by
  have hrefused {x : RelaxationM σ Unit} {taken given : RowRef → Nat}
      {why : Prop} (h : Ends x lp (fun _ t => Trades lp t taken given) fun _ t => t = lp ∧ why) :
      Trades lp (lp.after x) (if lp.accepts x then taken else fun _ => 0)
        (if lp.accepts x then given else fun _ => 0) := by
    refine outcome_of_ends (P := fun accepted t => Trades lp t
      (if accepted then taken else fun _ => 0) (if accepted then given else fun _ => 0))
      (h.mono (fun _ _ ht => ht) ?_)
    rintro _ _ ⟨rfl, -⟩
    exact hlp.trades_refl
  have hbalanced (hends : Ends (Relaxation.perform a) lp (fun _ t => Balanced lp t)
      fun _ t => Balanced lp t) : Trades lp (lp.after (Relaxation.perform a)) (fun _ => 0)
        fun _ => 0 := hlp.trades hends.state
  cases a with
  | createRow name spec =>
    have hcreate : Ends (Relaxation.perform (.createRow name spec)) lp
        (fun _ t => Trades lp t (oneOf ⟨lp.matrix.rows.size⟩) fun _ => 0)
        fun _ t => t = lp ∧ True :=
      Ends.bind_iff.mpr ((hlp.ends_createRow_trades name spec).mono (fun _ _ h => h)
        fun _ _ h => ⟨h, trivial⟩)
    simpa [taken, given] using hrefused hcreate
  | captureRow r =>
    have hcapture : Ends (Relaxation.perform (.captureRow r)) lp
        (fun _ t => Trades lp t (oneOf r) fun _ => 0) fun _ t => t = lp ∧ True :=
      (hlp.ends_captureRow_trades r).mono (fun _ _ h => h) fun _ _ h => ⟨h, trivial⟩
    simpa [taken, given] using hrefused hcapture
  | releaseRow r =>
    simpa [taken, given] using hrefused (x := Relaxation.perform (.releaseRow r))
      (hlp.ends_releaseRow_trades r)
  | _ => exact hbalanced (hlp.ends_balanced ha (by simp) (by simp) (by simp))

/-- A row that exists is released outside the active linear program by an action: by the caller, or
because it leaves the active linear program, which gives up its own use then. -/
def ReleasedBy (lp : Relaxation σ) (a : Action) (r : RowRef) : Prop :=
  (r ∉ lp.rows ∧ a = .releaseRow r) ∨ (r ∈ lp.rows ∧ r ∉ (lp.after (perform a)).rows)

/-- The caller can give up a use of a row that is not active. -/
theorem Coherent.given_of_inactive (hlp : lp.Coherent) (hr : (lp.matrix.row? r).isSome = true)
    (hout : r ∉ lp.rows) : lp.given (.releaseRow r) r = 1 := by
  have haccepts : lp.accepts (Relaxation.perform (.releaseRow r)) = true :=
    outcome_of_ends (P := fun accepted _ => accepted = true)
      ((hlp.ends_releaseRow_trades r).mono (fun _ _ _ => rfl) fun _ _ h => (hout (h.2 hr)).elim)
  rw [given, if_pos haccepts, oneOf, if_pos rfl]

theorem eq_release_of_given (h : lp.given a r ≠ 0) : a = .releaseRow r := by
  cases a with
  | releaseRow s =>
    rw [given] at h
    split at h
    · obtain rfl : r = s := by
        by_contra hne
        exact h (if_neg hne)
      rfl
    · exact (h rfl).elim
  | _ => exact (h rfl).elim

/-- A row is freed exactly when its last use is given up while it is not active. -/
theorem Coherent.freed_iff (hlp : lp.Coherent) (ha : lp.Permits a)
    (hr : (lp.matrix.row? r).isSome = true) :
    (lp.after (Relaxation.perform a)).matrix.row? r = none ↔
      lp.matrix.uses r = 1 ∧ lp.ReleasedBy a r := by
  have ht := hlp.perform ha
  obtain ⟨huses, hspare, hrows⟩ := hlp.trades_perform ha
  have huses := huses r
  have hspare := hspare r
  have hpositive := hlp.uses_pos hr
  have hshare' := ht.share_le_uses r
  have hsame (h : lp.taken a r ≠ 0 ∨ lp.given a r ≠ 0) :
      (lp.after (Relaxation.perform a)).share r = lp.share r := by
    rw [share, share, hrows r h]
  rw [← ht.uses_eq_zero_iff, ReleasedBy, ← share_eq_zero_iff, ← share_eq_zero_iff,
    ← share_eq_one_iff]
  constructor
  · intro hzero
    by_cases hgiven : lp.given a r = 0
    · have hshare : lp.share r ≤ 1 := by
        rw [share]
        split <;> omega
      exact ⟨by omega, .inr ⟨by omega, by omega⟩⟩
    · have := hsame (.inr hgiven)
      obtain rfl := eq_release_of_given hgiven
      have hone : lp.given (.releaseRow r) r ≤ 1 := by
        rw [given]
        split
        · rw [oneOf, if_pos rfl]
        · exact Nat.zero_le _
      exact ⟨by omega, .inl ⟨by omega, rfl⟩⟩
  · rintro ⟨hlast, ⟨hinactive, rfl⟩ | ⟨hactive, hgone⟩⟩
    · have hgiven := hlp.given_of_inactive hr (share_eq_zero_iff.mp hinactive)
      have := hsame (.inr (by rw [hgiven]; simp))
      have htaken : lp.taken (.releaseRow r) r = 0 := rfl
      omega
    · by_cases htaken : lp.taken a r = 0
      · omega
      · have := hsame (.inl htaken)
        omega

/-! ## Runs -/

/-- How many uses the caller has of each row. -/
abbrev Holdings := RowRef → Nat

/-- The uses that the caller has after a run, in which some were taken and others given up. -/
def Holdings.afterRun (held : Holdings) (lp : Relaxation σ) : List Action → Holdings
  | [] => held
  | a :: rest =>
    Holdings.afterRun (fun r => held r + lp.taken a r - lp.given a r) (lp.after (perform a)) rest

/-- The uses of every row are those of the caller and of the active linear program. -/
structure Accounted (lp : Relaxation σ) (held : Holdings) : Prop where
  coherent : lp.Coherent
  uses : ∀ r, lp.matrix.uses r = held r + lp.share r

/-- One action keeps the account. -/
theorem Accounted.perform {held : Holdings} (h : lp.Accounted held) (ha : lp.Permits a) :
    (lp.after (Relaxation.perform a)).Accounted
      fun r => held r + lp.taken a r - lp.given a r := by
  obtain ⟨huses, hspare, -⟩ := h.coherent.trades_perform ha
  refine ⟨h.coherent.perform ha, fun r => ?_⟩
  have := h.uses r
  have := huses r
  have := hspare r
  omega

theorem Accounted.performAll {held : Holdings} (h : lp.Accounted held)
    (hactions : Throughout Permits lp actions) :
    (lp.performAll actions).Accounted (held.afterRun lp actions) := by
  induction actions generalizing lp held with
  | nil => exact h
  | cons a rest ih => exact ih (h.perform hactions.1) hactions.2

/-- Nobody uses a row of a new relaxation, which has none. -/
theorem accounted_create (hcreate : create solver settings = .ok lp) :
    lp.Accounted fun _ => 0 := by
  obtain ⟨hblank, hquiet⟩ := quiet_create hcreate
  refine ⟨(hquiet.carries hblank).coherent, fun r => ?_⟩
  have hout : r ∉ (blank solver).rows := Array.not_mem_empty r
  rw [hquiet.unmoved.stays.uses, share, hquiet.unmoved.rows, if_neg hout]
  rfl

/-- The rows that are needed exist, the others were freed, and nothing that removes rows can fail. -/
structure Lasting (lp : Relaxation σ) (held : Holdings) : Prop where
  /-- Every active row exists, and has a use. -/
  active : ∀ r ∈ lp.rows, ∃ row, lp.matrix.row? r = some row ∧ 0 < row.nrUses
  /-- No column refers to a row that was freed. -/
  partner : ∀ c, ∀ e ∈ (lp.matrix.column c).entries.entries,
    (lp.matrix.row? e.partner).isSome = true
  /-- The uses of a row are those of the caller, and one for the active linear program. -/
  uses : ∀ {r row}, lp.matrix.row? r = some row →
    row.nrUses = held r + if r ∈ lp.rows then 1 else 0
  /-- A row that nobody uses is not there, and the other ones are. -/
  gone : ∀ r, lp.matrix.row? r = none ↔ held r = 0 ∧ r ∉ lp.rows
  /-- A row is freed exactly when its last use is released while it is not active. -/
  freed : ∀ {a r row}, lp.Permits a → lp.matrix.row? r = some row →
    ((lp.after (perform a)).matrix.row? r = none ↔ row.nrUses = 1 ∧ lp.ReleasedBy a r)
  /-- The last rows can be removed. -/
  shrinkRows : ∀ size, lp.accepts (shrinkRows size) = true
  /-- Any rows can be removed. -/
  deleteRows : ∀ mask : Array Bool, mask.size = lp.rows.size → lp.accepts (deleteRows mask) = true
  /-- All columns and rows can be removed. -/
  clear : lp.accepts clear = true

theorem accepts_of_unfailing {x : RelaxationM σ Unit} {Q : Unit → Relaxation σ → Prop}
    (h : Ends x lp Q fun _ _ => False) : lp.accepts x = true :=
  outcome_of_ends (P := fun accepted _ => accepted = true)
    (h.mono (fun _ _ _ => rfl) fun _ _ h => h.elim)

theorem uses_of_row {row : Row} (hrow : lp.matrix.row? r = some row) :
    lp.matrix.uses r = row.nrUses := by
  rw [ConstraintMatrix.uses, hrow]
  rfl

theorem Accounted.lasting {held : Holdings} (h : lp.Accounted held) : lp.Lasting held where
  active r hr := by
    obtain ⟨row, hrow, -⟩ := h.coherent.exists_row_of_mem hr
    exact ⟨row, hrow, uses_of_row hrow ▸ h.coherent.uses_pos (by rw [hrow]; rfl)⟩
  partner c e he := by
    obtain ⟨i, hi⟩ := Array.mem_iff_getElem?.mp he
    exact h.coherent.sound.tidy.has_partner (ConstraintMatrix.cell_of_column hi)
  uses {r row} hrow := by
    rw [← uses_of_row hrow, h.uses, share]
  gone r := by
    rw [← h.coherent.uses_eq_zero_iff, h.uses, Nat.add_eq_zero_iff, share_eq_zero_iff]
  freed {a r row} ha hrow := by
    rw [← uses_of_row hrow]
    exact h.coherent.freed_iff ha (by rw [hrow]; rfl)
  shrinkRows size := accepts_of_unfailing (ends_shrinkRows_balanced h.coherent size)
  deleteRows mask hsize := accepts_of_unfailing
    ((ends_deleteRows_balanced h.coherent mask).mono (fun _ _ h => h) fun _ _ h => h.2 hsize)
  clear := accepts_of_unfailing (ends_clear h.coherent)

/-- Whatever is done to a relaxation, and whether it succeeds or not: the rows that the caller or the
active linear program uses are there, exactly the others were freed, each of them with its last use,
and the removal of rows never fails. -/
theorem performAll_lasting (hcreate : create solver settings = .ok lp)
    (hactions : Throughout Permits lp actions) :
    (lp.performAll actions).Lasting (Holdings.afterRun (fun _ => 0) lp actions) :=
  ((accounted_create hcreate).performAll hactions).lasting

/-- A row is sent to the solver and changed. Then it leaves the linear program, and is freed with the
use of the caller. Another row is active, and only the linear program uses it. -/
def abandoningActions : List Action := [
  .createRow "r" ⟨⟨1, .posInf⟩, 0⟩, .createRow "s" ⟨⟨0, .posInf⟩, 0⟩, .addRow ⟨0⟩, .sync,
  .changeSide ⟨0⟩ .lower 2, .shrinkRows 0, .addRow ⟨1⟩, .releaseRow ⟨1⟩, .releaseRow ⟨0⟩]

/-- The row that was freed is still in the solver and in the queue. -/
theorem performAll_lasting_abandoning :
    let lp := fresh.performAll abandoningActions
    lp.Lasting (Holdings.afterRun (fun _ => 0) fresh abandoningActions) ∧
      lp.matrix.row? ⟨0⟩ = none ∧ lp.matrix.solverRows = #[⟨0⟩] ∧ lp.changedRows = #[⟨0⟩] ∧
      lp.rows = #[⟨1⟩] ∧ lp.matrix.uses ⟨1⟩ = 1 :=
  ⟨performAll_lasting create_fresh (by decide +kernel), by decide +kernel, by decide +kernel,
    by decide +kernel, by decide +kernel, by decide +kernel⟩

end Relaxation

end CertifiedLp
