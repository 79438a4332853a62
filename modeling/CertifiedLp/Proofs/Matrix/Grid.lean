import Mathlib
import CertifiedLp.Proofs.Incidence.Moves

/-!
# Grids

The entries of a matrix without regard to which of its lines are columns. A *grid* has the entries
of each line, with partners that are lines again, the size of the active part of each line, and the
lines that are active.

In a *wired* grid the links lead back and forth between the two entries of a coefficient, and an
entry is in the active part of its line exactly when it is linked to an active line. What a line
*stores* for another one forgets the positions.
-/

namespace CertifiedLp

/-- A column or a row. -/
inductive Line where
  | column (c : ColumnRef)
  | row (r : RowRef)
  deriving DecidableEq

section Renaming

variable {κ μ : Type}

/-- The entry with another name for its partner. -/
def Entry.map (name : κ → μ) (e : Entry κ) : Entry μ := ⟨name e.partner, e.value, e.link⟩

/-- The move with another name for the partner. -/
def Move.map (name : κ → μ) (move : Move κ) : Move μ :=
  ⟨name move.partner, move.counterpart, move.position⟩

variable [DecidableEq κ] [DecidableEq μ] {name : κ → μ}

theorem Move.told_map (hname : Function.Injective name) (moves : List (Move κ)) (line : κ)
    (position : Nat) (link : Option Nat) :
    told (moves.map (Move.map name)) (name line) position link = told moves line position link := by
  induction moves generalizing link with
  | nil => rfl
  | cons move moves ih =>
    rw [List.map_cons, told_cons, told_cons, ih]
    simp [Move.map, hname.eq_iff]

/-- Moves still track a rearrangement when the partners get other names. -/
theorem Tracked.map (hname : Function.Injective name) {f : Nat → Nat} {es es' : Array (Entry κ)}
    {moves : List (Move κ)} (h : Tracked f es es' moves) :
    Tracked f (es.map (Entry.map name)) (es'.map (Entry.map name)) (moves.map (Move.map name)) where
  forth he := by
    rw [Array.getElem?_map, Option.map_eq_some_iff] at he ⊢
    obtain ⟨e, he, rfl⟩ := he
    exact ⟨e, h.forth he, rfl⟩
  back he := by
    rw [Array.getElem?_map, Option.map_eq_some_iff] at he
    obtain ⟨e, he, rfl⟩ := he
    obtain ⟨i, rfl, hi⟩ := h.back he
    exact ⟨i, rfl, by rw [Array.getElem?_map, hi, Option.map_some]⟩
  told he hk := by
    rw [Array.getElem?_map, Option.map_eq_some_iff] at he
    obtain ⟨e, he, rfl⟩ := he
    rw [Entry.map, Move.told_map hname]
    exact h.told he hk
  truthful hmove := by
    obtain ⟨move, hmem, rfl⟩ := List.mem_map.mp hmove
    obtain ⟨i, e, he, hpartner, hlink⟩ := h.truthful hmem
    refine ⟨i, e.map name, by rw [Array.getElem?_map, he, Option.map_some], ?_, hlink⟩
    rw [Entry.map, Move.map, hpartner]

end Renaming

/-- The entries of all lines. -/
structure Grid where
  /-- The entries of a line. -/
  cells : Line → Array (Entry Line)
  /-- The size of the active part of a line. -/
  nrActive : Line → Nat
  /-- Whether a line is in the active linear program. -/
  isActive : Line → Bool

namespace Grid

variable {g g' : Grid} {x y z : Line} {i j k : Nat} {v : Extended} {e : Entry Line}
variable {f : Nat → Nat} {n : Nat}

/-- The entry at a position of a line. -/
def cell (g : Grid) (x : Line) (i : Nat) : Option (Entry Line) := (g.cells x)[i]?

theorem lt_size_of_cell (h : g.cell x i = some e) : i < (g.cells x).size :=
  (Array.getElem?_eq_some_iff.mp h).1

/-- The entry at a position has a link to a position of another line. -/
def Linked (g : Grid) (x : Line) (i : Nat) (y : Line) (k : Nat) (v : Extended) : Prop :=
  g.cell x i = some ⟨y, v, some k⟩

/-- Links lead back to where they come from, and never to the line that they are in. -/
structure Mirrored (g : Grid) : Prop where
  back : ∀ {x i y k v}, g.Linked x i y k v → g.Linked y k x i v
  ne : ∀ {x i y k v}, g.Linked x i y k v → y ≠ x

/-- Linked entries of a line have different counterparts. -/
theorem Mirrored.distinct (h : g.Mirrored) (x : Line) : Distinct (g.cells x) := by
  intro i j e e' hi hj hpartner hsome hlink
  obtain ⟨y, v, k⟩ := e
  obtain ⟨y', v', k'⟩ := e'
  obtain ⟨k, rfl⟩ := Option.isSome_iff_exists.mp hsome
  obtain rfl : y = y' := hpartner
  obtain rfl : some k = k' := hlink
  have hback := h.back (show g.Linked x i y k v from hi)
  have hback' := h.back (show g.Linked x j y k v' from hj)
  rw [Linked, hback] at hback'
  cases hback'
  rfl

/-- Nothing else is linked, so links stay mirrored. -/
theorem Mirrored.congr (h : g.Mirrored)
    (hlinked : ∀ x i y k v, g'.Linked x i y k v ↔ g.Linked x i y k v) : g'.Mirrored where
  back hl := (hlinked ..).mpr (h.back ((hlinked ..).mp hl))
  ne hl := h.ne ((hlinked ..).mp hl)

/-- An entry is linked to a line in the active linear program. -/
def InUse (g : Grid) (e : Entry Line) : Prop := e.link.isSome = true ∧ g.isActive e.partner = true

/-- The active part of every line has the wanted entries, some positions apart. -/
def Parted (g : Grid) (exempt : Line → Nat → Prop) (wanted : Entry Line → Prop) : Prop :=
  ∀ x i e, g.cell x i = some e → ¬ exempt x i → (i < g.nrActive x ↔ wanted e)

/-- Links are mirrored, and the entries in use are in the active parts. -/
structure Wired (g : Grid) : Prop where
  mirrored : g.Mirrored
  parted : g.Parted (fun _ _ => False) g.InUse
  bounded : ∀ x, g.nrActive x ≤ (g.cells x).size

/-- The values that a line stores for another one, each with whether it is linked. -/
def stored (g : Grid) (x y : Line) : Multiset (Extended × Bool) :=
  (((g.cells x).toList.filter (·.partner = y)).map fun e => (e.value, e.link.isSome) : List _)

theorem mem_stored_iff {b : Bool} : (v, b) ∈ g.stored x y ↔
    ∃ (i : Nat) (e : Entry Line), g.cell x i = some e ∧ e.partner = y ∧ e.value = v ∧
      e.link.isSome = b := by
  simp only [stored, Multiset.mem_coe, List.mem_map, List.mem_filter, Array.mem_toList_iff,
    decide_eq_true_eq, Prod.mk.injEq, Array.mem_iff_getElem?, cell]
  constructor
  · rintro ⟨e, ⟨⟨i, hi⟩, hpartner⟩, hvalue, hlink⟩
    exact ⟨i, e, hi, hpartner, hvalue, hlink⟩
  · rintro ⟨i, e, hi, hpartner, hvalue, hlink⟩
    exact ⟨e, ⟨⟨i, hi⟩, hpartner⟩, hvalue, hlink⟩

/-! ## Rearranging a line -/

/-- An entry of another line, after the entries of a line were sent to other positions. -/
def retold (x : Line) (f : Nat → Nat) (e : Entry Line) : Entry Line :=
  if e.partner = x then { e with link := e.link.map f } else e

@[simp] theorem partner_retold : (retold x f e).partner = e.partner := by
  rw [retold]
  split <;> rfl

@[simp] theorem value_retold : (retold x f e).value = e.value := by
  rw [retold]
  split <;> rfl

@[simp] theorem isSome_link_retold : (retold x f e).link.isSome = e.link.isSome := by
  rw [retold]
  split <;> simp

@[simp] theorem link_retold_eq_none : (retold x f e).link = none ↔ e.link = none := by
  rw [retold]
  split <;> simp

/-- The entries of a line were sent to other positions, and the other lines know it. -/
structure Rearranges (g g' : Grid) (x : Line) (f : Nat → Nat) : Prop where
  forth : ∀ {i e}, g.cell x i = some e → g'.cell x (f i) = some e
  back : ∀ {j e}, g'.cell x j = some e → ∃ i, f i = j ∧ g.cell x i = some e
  perm : (g'.cells x).toList.Perm (g.cells x).toList
  others : ∀ {y}, y ≠ x → g'.cells y = (g.cells y).map (retold x f)
  nrActive : ∀ {y}, y ≠ x → g'.nrActive y = g.nrActive y
  isActive : g'.isActive = g.isActive

namespace Rearranges

theorem cell_of_ne (h : Rearranges g g' x f) (hy : y ≠ x) :
    g'.cell y k = (g.cell y k).map (retold x f) := by
  rw [cell, h.others hy, Array.getElem?_map]
  rfl

theorem size_eq (h : Rearranges g g' x f) (y : Line) :
    (g'.cells y).size = (g.cells y).size := by
  by_cases hy : y = x
  · subst hy
    simpa using h.perm.length_eq
  · rw [h.others hy, Array.size_map]

theorem linked_of_ne (h : Rearranges g g' x f) (hy : y ≠ x) :
    g'.Linked y k z j v ↔ if z = x then ∃ i, f i = j ∧ g.Linked y k x i v
      else g.Linked y k z j v := by
  rw [Linked, h.cell_of_ne hy, Option.map_eq_some_iff]
  constructor
  · rintro ⟨⟨p, w, link⟩, he, hretold⟩
    by_cases hp : p = x
    · subst hp
      simp only [retold, if_true, Entry.mk.injEq, Option.map_eq_some_iff] at hretold
      obtain ⟨rfl, rfl, i, rfl, rfl⟩ := hretold
      rw [if_pos rfl]
      exact ⟨i, rfl, he⟩
    · rw [retold, if_neg hp] at hretold
      cases hretold
      rw [if_neg hp]
      exact he
  · split
    · next hz =>
      subst hz
      rintro ⟨i, rfl, hl⟩
      exact ⟨_, hl, by simp [retold]⟩
    · next hz =>
      intro hl
      exact ⟨_, hl, by rw [retold, if_neg hz]⟩

theorem mirrored (h : Rearranges g g' x f) (hg : g.Mirrored) : g'.Mirrored := by
  have hself {j : Nat} {z : Line} {k : Nat} {v : Extended} :
      g'.Linked x j z k v → ∃ i, f i = j ∧ g.Linked x i z k v := h.back
  constructor
  · intro y k z j v hl
    by_cases hy : y = x
    · subst hy
      obtain ⟨i, rfl, hold⟩ := hself hl
      rw [h.linked_of_ne (hg.ne hold), if_pos rfl]
      exact ⟨i, rfl, hg.back hold⟩
    · rw [h.linked_of_ne hy] at hl
      split at hl
      · next hz =>
        subst hz
        obtain ⟨i, rfl, hl⟩ := hl
        exact h.forth (hg.back hl)
      · next hz =>
        rw [h.linked_of_ne hz, if_neg hy]
        exact hg.back hl
  · intro y k z j v hl
    by_cases hy : y = x
    · subst hy
      obtain ⟨i, -, hold⟩ := hself hl
      exact hg.ne hold
    · rw [h.linked_of_ne hy] at hl
      split at hl
      · next hz =>
        subst hz
        exact Ne.symm hy
      · exact hg.ne hl

/-- The other lines keep their parts, also when something else is wanted of them. -/
theorem parted (h : Rearranges g g' x f) {exempt exempt' : Line → Nat → Prop}
    {wanted wanted' : Entry Line → Prop} (hg : g.Parted exempt wanted)
    (hself : ∀ i e, g.cell x i = some e → ¬ exempt' x (f i) → (f i < g'.nrActive x ↔ wanted' e))
    (hexempt : ∀ y k, y ≠ x → exempt y k → exempt' y k)
    (hothers : ∀ y k e, y ≠ x → g.cell y k = some e → (wanted' (retold x f e) ↔ wanted e)) :
    g'.Parted exempt' wanted' := by
  intro y k e he hnot
  by_cases hy : y = x
  · subst hy
    obtain ⟨i, rfl, hi⟩ := h.back he
    exact hself i e hi hnot
  · rw [h.cell_of_ne hy] at he
    obtain ⟨e, hold, rfl⟩ := Option.map_eq_some_iff.mp he
    rw [h.nrActive hy, hg y k e hold fun hex => hnot (hexempt y k hy hex), hothers y k e hy hold]

theorem inUse_iff (h : Rearranges g g' x f) : g'.InUse e ↔ g.InUse e := by
  rw [InUse, InUse, h.isActive]

theorem inUse_retold (h : Rearranges g g' x f) : g'.InUse (retold y f e) ↔ g.InUse e := by
  rw [InUse, InUse, h.isActive, partner_retold, isSome_link_retold]

theorem wired (h : Rearranges g g' x f) (hg : g.Wired) (hactive : g'.nrActive x = g.nrActive x)
    (hparts : ∀ i, i < (g.cells x).size → (f i < g.nrActive x ↔ i < g.nrActive x)) : g'.Wired where
  mirrored := h.mirrored hg.mirrored
  parted := by
    refine h.parted hg.parted (fun i e he _ => ?_) (fun _ _ _ hno => hno)
      fun y k e _ _ => h.inUse_retold
    rw [hactive, hparts i (lt_size_of_cell he), hg.parted x i e he id, h.inUse_iff]
  bounded y := by
    rw [h.size_eq]
    by_cases hy : y = x
    · subst hy
      rw [hactive]
      exact hg.bounded y
    · rw [h.nrActive hy]
      exact hg.bounded y

/-- A rearrangement does not change what is stored. -/
theorem stored_eq (h : Rearranges g g' x f) : g'.stored = g.stored := by
  funext y z
  by_cases hy : y = x
  · subst hy
    exact Multiset.coe_eq_coe.mpr ((h.perm.filter _).map _)
  · rw [stored, h.others hy, stored, Array.toList_map, List.filter_map, List.map_map]
    congr 1
    have htest : (fun e : Entry Line => decide (e.partner = z)) ∘ retold x f =
        fun e => decide (e.partner = z) := funext fun e => by simp
    rw [htest]
    refine List.map_congr_left fun e _ => ?_
    simp

end Rearranges

/-- What a line learns from the moves of another one is where the entries of that went. -/
theorem Mirrored.told_eq (h : g.Mirrored) {es : Array (Entry Line)} {moves : List (Move Line)}
    (htracked : Tracked f (g.cells x) es moves) (he : g.cell y k = some e) :
    { e with link := Move.told moves y k e.link } = retold x f e := by
  obtain ⟨z, v, link⟩ := e
  -- The moves concern the counterparts of entries of `x` only.
  have hother (hz : ∀ i w, ¬ g.Linked x i y k w) : Move.told moves y k link = link := by
    refine Move.told_of_forall_ne (fun move hmem hmove => ?_) link
    obtain ⟨i, ⟨p, w, l⟩, hi, hpartner, hlink⟩ := htracked.truthful hmem
    refine hz i w ?_
    rw [Linked, cell, hi, ← hmove.1, ← hmove.2, ← hpartner, ← hlink]
  cases link with
  | none =>
    rw [hother fun i w hl => ?_]
    · simp [retold]
    · have hback := h.back hl
      rw [Linked, he] at hback
      cases hback
  | some i =>
    by_cases hz : z = x
    · subst hz
      rw [htracked.told (h.back he) rfl]
      simp [retold]
    · rw [hother fun i w hl => ?_]
      · rw [retold, if_neg hz]
      · have hback := h.back hl
        rw [Linked, he] at hback
        cases hback
        exact hz rfl

/-- The other lines were told the moves of the entries of a line. -/
structure Tells (g g' : Grid) (x : Line) (moves : List (Move Line)) : Prop where
  cell : ∀ y k, y ≠ x →
    g'.cell y k = (g.cell y k).map fun e => { e with link := Move.told moves y k e.link }
  nrActive : ∀ y, y ≠ x → g'.nrActive y = g.nrActive y
  isActive : g'.isActive = g.isActive

theorem Tells.rearranges {moves : List (Move Line)} (h : Tells g g' x moves) (hg : g.Mirrored)
    (htracked : Tracked f (g.cells x) (g'.cells x) moves)
    (hperm : (g'.cells x).toList.Perm (g.cells x).toList) : Rearranges g g' x f where
  forth := htracked.forth
  back := htracked.back
  perm := hperm
  others {y} hy := by
    apply Array.ext_getElem?
    intro k
    have hcell := h.cell y k hy
    rw [Grid.cell, Grid.cell] at hcell
    rw [hcell, Array.getElem?_map]
    cases he : (g.cells y)[k]? with
    | none => rfl
    | some e => rw [Option.map_some, Option.map_some, hg.told_eq htracked he]
  nrActive {y} := h.nrActive y
  isActive := h.isActive

/-! ## Changing the entries of a line -/

/-- Replace the entries of a line. -/
def update (g : Grid) (x : Line) (es : Array (Entry Line)) : Grid :=
  { g with cells := Function.update g.cells x es }

@[simp] theorem nrActive_update (es : Array (Entry Line)) : (g.update x es).nrActive = g.nrActive :=
  rfl

@[simp] theorem isActive_update (es : Array (Entry Line)) : (g.update x es).isActive = g.isActive :=
  rfl

@[simp] theorem cells_update_self (es : Array (Entry Line)) : (g.update x es).cells x = es :=
  Function.update_self ..

theorem cells_update_of_ne (h : y ≠ x) (es : Array (Entry Line)) :
    (g.update x es).cells y = g.cells y :=
  Function.update_of_ne h ..

theorem cell_update_of_ne (h : y ≠ x) (es : Array (Entry Line)) :
    (g.update x es).cell y k = g.cell y k := by
  rw [cell, cells_update_of_ne h, cell]

/-- Append an entry to a line. -/
def push (g : Grid) (x : Line) (e : Entry Line) : Grid := g.update x ((g.cells x).push e)

theorem cell_push : (g.push x e).cell y k =
    if y = x ∧ k = (g.cells x).size then some e else g.cell y k := by
  by_cases hy : y = x
  · subst hy
    simp [cell, push, Array.getElem?_push]
  · rw [push, cell_update_of_ne hy, if_neg fun h => hy h.1]

/-- Change the entry at a position of a line. -/
def modify (g : Grid) (x : Line) (i : Nat) (f : Entry Line → Entry Line) : Grid :=
  g.update x ((g.cells x).modify i f)

theorem cell_modify {f : Entry Line → Entry Line} : (g.modify x i f).cell y k =
    if y = x ∧ k = i then (g.cell y k).map f else g.cell y k := by
  by_cases hy : y = x
  · subst hy
    rw [cell, modify, cells_update_self, Array.getElem?_modify]
    by_cases hk : i = k
    · subst hk
      simp [cell]
    · rw [if_neg hk, if_neg fun h => hk h.2.symm]
      rfl
  · rw [modify, cell_update_of_ne hy, if_neg fun h => hy h.1]

theorem size_modify {f : Entry Line → Entry Line} (y : Line) :
    ((g.modify x i f).cells y).size = (g.cells y).size := by
  by_cases hy : y = x
  · subst hy
    simp [modify]
  · rw [modify, cells_update_of_ne hy]

theorem linked_push (he : e.link = none) :
    (g.push x e).Linked y k z j v ↔ g.Linked y k z j v := by
  rw [Linked, cell_push]
  split
  · next hpos =>
    constructor
    · intro heq
      cases Option.some.inj heq
      cases he
    · intro hl
      have hlt := lt_size_of_cell hl
      rw [hpos.1] at hlt
      omega
  · exact Iff.rfl

/-- An entry without a link can be appended to any line. -/
theorem Wired.push (h : g.Wired) (he : e.link = none) : (g.push x e).Wired where
  mirrored := h.mirrored.congr fun _ _ _ _ _ => linked_push he
  parted := by
    intro y k e' he' _
    rw [cell_push] at he'
    split at he'
    · next hpos =>
      obtain rfl := Option.some.inj he'
      have hbounded := h.bounded y
      have hsize : k = (g.cells y).size := by rw [hpos.1]; exact hpos.2
      have hnot : ¬ k < g.nrActive y := by omega
      have hunused : ¬ (g.push x e).InUse e := fun hused => by
        rw [InUse, he] at hused
        cases hused.1
      exact iff_of_false hnot hunused
    · exact h.parted y k e' he' id
  bounded y := by
    refine Nat.le_trans (h.bounded y) ?_
    by_cases hy : y = x
    · subst hy
      simp [Grid.push]
    · rw [Grid.push, cells_update_of_ne hy]

theorem stored_push (g : Grid) (x : Line) (e : Entry Line) (y z : Line) :
    (g.push x e).stored y z =
      g.stored y z + if y = x ∧ e.partner = z then {(e.value, e.link.isSome)} else 0 := by
  by_cases hy : y = x
  · subst hy
    rw [stored, push, cells_update_self, Array.toList_push, List.filter_append, List.map_append,
      ← Multiset.coe_add, stored]
    congr 1
    by_cases hz : e.partner = z <;> simp [hz]
  · rw [stored, push, cells_update_of_ne hy, if_neg fun h => hy h.1, add_zero]
    rfl

theorem stored_modify {f : Entry Line → Entry Line} (he : g.cell x i = some e)
    (hf : (f e).partner = e.partner) (y z : Line) :
    (g.modify x i f).stored y z +
        (if y = x ∧ e.partner = z then {(e.value, e.link.isSome)} else 0) =
      g.stored y z + if y = x ∧ e.partner = z then {((f e).value, (f e).link.isSome)} else 0 := by
  by_cases hy : y = x
  · subst hy
    obtain ⟨hi, rfl⟩ := Array.getElem?_eq_some_iff.mp he
    have hi' : i < (g.cells y).toList.length := by simpa using hi
    have hsplit : (g.cells y).toList = (g.cells y).toList.take i ++
        (g.cells y)[i] :: (g.cells y).toList.drop (i + 1) := by
      rw [← Array.getElem_toList, ← List.drop_eq_getElem_cons hi', List.take_append_drop]
    rw [stored, modify, cells_update_self, Array.toList_modify, List.modify_eq_take_cons_drop hi',
      stored]
    conv_rhs => rw [hsplit]
    simp only [List.filter_append, List.map_append, List.filter_cons, ← Multiset.coe_add, hf,
      Array.getElem_toList, true_and]
    by_cases hz : (g.cells y)[i].partner = z
    · simp only [hz, decide_true, if_true, List.map_cons, ← Multiset.cons_coe,
        ← Multiset.singleton_add]
      abel
    · simp only [hz, decide_false, if_false, Bool.false_eq_true]
  · rw [stored, modify, cells_update_of_ne hy, if_neg fun h => hy h.1, if_neg fun h => hy h.1]
    rfl

end Grid

end CertifiedLp
