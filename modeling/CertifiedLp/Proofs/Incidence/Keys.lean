import Mathlib
import CertifiedLp.Proofs.Incidence.Parts

/-!
# Keys

The *keys* of a part are the numbers of the partners, in the order of the entries. All that decides
whether a part is sorted are its keys, so that the effect of an operation on the order can be
followed on lists of numbers. Storing a key and removing it again undo each other, unless the part
of the key is sorted in between: then the last key of the part takes the place of the one that is
removed.
-/

namespace CertifiedLp

/-! ## Moving the ends of a list -/

section Ends

variable {α : Type} {xs : List α} {x : α}

/-- The list with its last element first. -/
def lastFirst (xs : List α) : List α := xs.getLast?.toList ++ xs.dropLast

/-- The list with its first element last. -/
def firstLast (xs : List α) : List α := xs.drop 1 ++ xs.take 1

@[simp] theorem lastFirst_nil : lastFirst ([] : List α) = [] := rfl

@[simp] theorem lastFirst_concat (xs : List α) (x : α) : lastFirst (xs ++ [x]) = x :: xs := by
  simp [lastFirst]

@[simp] theorem lastFirst_firstLast (xs : List α) : lastFirst (firstLast xs) = xs := by
  cases xs with
  | nil => rfl
  | cons x xs => exact lastFirst_concat xs x

@[simp] theorem length_lastFirst (xs : List α) : (lastFirst xs).length = xs.length := by
  rcases xs.eq_nil_or_concat' with rfl | ⟨xs, x, rfl⟩
  · rfl
  · simp

theorem eq_append_of_getElem? {i : Nat} (h : xs[i]? = some x) :
    ∃ pre post, xs = pre ++ x :: post ∧ pre.length = i := by
  obtain ⟨hi, rfl⟩ := List.getElem?_eq_some_iff.mp h
  refine ⟨xs.take i, xs.drop (i + 1), ?_, List.length_take_of_le hi.le⟩
  rw [← List.drop_eq_getElem_cons hi, List.take_append_drop]

end Ends

/-- The list without a number, in whose place is the last one. -/
def plug (k : Nat) : List Nat → List Nat
  | [] => []
  | x :: xs => if x = k then lastFirst xs else x :: plug k xs

variable {k : Nat} {ks pre post : List Nat}

theorem plug_of_notMem (h : k ∉ ks) : plug k ks = ks := by
  induction ks with
  | nil => rfl
  | cons x xs ih =>
    rw [List.mem_cons, not_or] at h
    rw [plug, if_neg fun heq => h.1 heq.symm, ih h.2]

theorem plug_append (h : k ∉ pre) : plug k (pre ++ k :: post) = pre ++ lastFirst post := by
  induction pre with
  | nil => exact if_pos rfl
  | cons x xs ih =>
    rw [List.mem_cons, not_or] at h
    rw [List.cons_append, plug, if_neg fun heq => h.1 heq.symm, ih h.2, List.cons_append]

theorem plug_concat (h : k ∉ ks) : plug k (ks ++ [k]) = ks := by
  rw [plug_append h, lastFirst_nil, List.append_nil]

/-- In the order that is left by the removal from a sorted list, at most one number can have been
behind the hole. -/
theorem pairwise_plug_iff (hsorted : ks.Pairwise (· ≤ ·)) (hnodup : ks.Nodup) (hk : k ∈ ks) :
    (plug k ks).Pairwise (· ≤ ·) ↔ ks.countP (k < ·) ≤ 1 := by
  obtain ⟨pre, post, rfl⟩ := List.append_of_mem hk
  have hpre : k ∉ pre := fun h => List.disjoint_of_nodup_append hnodup h (by simp)
  rw [List.pairwise_append, List.pairwise_cons] at hsorted
  obtain ⟨hleft, ⟨hbehind, hright⟩, hacross⟩ := hsorted
  rw [List.nodup_append, List.nodup_cons] at hnodup
  obtain ⟨-, ⟨hpost, hnodup⟩, -⟩ := hnodup
  have hcount : (pre ++ k :: post).countP (k < ·) = post.length := by
    have hzero : pre.countP (k < ·) = 0 := by
      rw [List.countP_eq_zero]
      intro x hx
      simpa using hacross x hx k (by simp)
    have hall : post.countP (k < ·) = post.length := by
      rw [List.countP_eq_length]
      intro x hx
      have hne : k ≠ x := fun heq => hpost (heq ▸ hx)
      have := hbehind x hx
      simpa using by omega
    rw [List.countP_append, List.countP_cons_of_neg (by simp), hzero, hall, zero_add]
  rw [plug_append hpre, hcount]
  rcases post.eq_nil_or_concat' with rfl | ⟨mid, z, rfl⟩
  · simpa using hleft
  · rw [lastFirst_concat, List.length_append, List.length_singleton]
    rw [List.pairwise_append] at hright
    constructor
    · intro hplugged
      -- What was before the last number is smaller than it, and comes after it now.
      cases mid with
      | nil => simp
      | cons x mid =>
        rw [List.pairwise_append, List.pairwise_cons] at hplugged
        have hle := hplugged.2.1.1 x (by simp)
        have hge := hright.2.2 x (by simp) z (by simp)
        rw [List.nodup_append] at hnodup
        exact absurd (Nat.le_antisymm hge hle) (hnodup.2.2 x (by simp) z (by simp))
    · intro hlength
      obtain rfl : mid = [] := List.length_eq_zero_iff.mp (by omega)
      rw [List.pairwise_append]
      refine ⟨hleft, List.pairwise_singleton _ _, fun x hx y hy => hacross x hx y ?_⟩
      simpa using Or.inr (by simpa using hy)

/-! ## Keys -/

/-- The keys of both parts. -/
abbrev Keys := Part → List Nat

namespace Keys

variable {K K' K₀ K₁ K₂ : Keys} {parts all : List Part} {part : Part} {seat : Option Part}

/-- A key is stored at the end of the rest. -/
def append (k : Nat) (K : Keys) : Keys
  | .active => K .active
  | .rest => K .rest ++ [k]

/-- A key is stored at the end of the active part. It changes places with the start of the rest. -/
def enter (k : Nat) (K : Keys) : Keys
  | .active => K .active ++ [k]
  | .rest => firstLast (K .rest)

/-- A key is stored in a part, or not at all. -/
def store (k : Nat) (K : Keys) : Option Part → Keys
  | some .active => K.enter k
  | some .rest => K.append k
  | none => K

theorem store_self (k : Nat) (K : Keys) (part : Part) :
    K.store k (some part) part = K part ++ [k] := by
  cases part <;> rfl

/-- A key is removed. The last key of the rest is behind all keys of the active part, and takes the
place of the last one of them. -/
def drop (k : Nat) (K : Keys) : Keys
  | .active => plug k (K .active)
  | .rest => if k ∈ K .active then lastFirst (K .rest) else plug k (K .rest)

theorem drop_of_notMem (h : ∀ part, k ∉ K part) : K.drop k = K := by
  funext part
  cases part with
  | active => exact plug_of_notMem (h .active)
  | rest => rw [drop, if_neg (h .active), plug_of_notMem (h .rest)]

/-- Storing a key and removing it leaves the others as they were. -/
theorem drop_store (h : ∀ part, k ∉ K part) (seat : Option Part) : (K.store k seat).drop k = K := by
  rcases seat with _ | _ | _
  · exact drop_of_notMem h
  · funext part
    cases part with
    | active => exact plug_concat (h .active)
    | rest => exact (if_pos (by simp [store, enter])).trans (lastFirst_firstLast _)
  · funext part
    cases part with
    | active => exact plug_of_notMem (h .active)
    | rest => exact (if_neg (h .active)).trans (plug_concat (h .rest))

theorem nodup_part (h : (K .active ++ K .rest).Nodup) (part : Part) : (K part).Nodup := by
  rw [List.nodup_append] at h
  cases part
  · exact h.1
  · exact h.2.1

/-! ### Sorting -/

/-- Some parts were sorted, and the others left alone. -/
structure Sifted (parts : List Part) (K K' : Keys) : Prop where
  perm : ∀ part, (K' part).Perm (K part)
  sorted : ∀ part ∈ parts, (K' part).Pairwise (· ≤ ·)
  same : ∀ part ∉ parts, K' part = K part

theorem Sifted.refl (K : Keys) : Sifted [] K K := ⟨fun _ => .refl _, by simp, fun _ _ => rfl⟩

/-- One more part was sorted. -/
theorem Sifted.snoc (h : Sifted parts K K₁) (h' : Sifted [part] K₁ K₂) :
    Sifted (parts ++ [part]) K K₂ where
  perm other := (h'.perm other).trans (h.perm other)
  sorted other hother := by
    by_cases heq : other = part
    · exact h'.sorted other (by simp [heq])
    · rw [h'.same other (by simpa using heq)]
      exact h.sorted other (by simpa [heq] using hother)
  same other hother := by
    rw [List.mem_append, not_or] at hother
    rw [h'.same other hother.2, h.same other hother.1]

/-- Sorting parts once more makes no difference. -/
theorem Sifted.again (h : Sifted parts K₀ K₁) (h' : Sifted all K₁ K₂) (hsub : all ⊆ parts) :
    Sifted parts K₀ K₂ where
  perm part := (h'.perm part).trans (h.perm part)
  sorted part hpart := by
    by_cases hall : part ∈ all
    · exact h'.sorted part hall
    · rw [h'.same part hall]
      exact h.sorted part hpart
  same part hpart := (h'.same part fun h => hpart (hsub h)).trans (h.same part hpart)

theorem mem_store_iff (h : ∀ part, k ∉ K part) : k ∈ K.store k seat part ↔ seat = some part := by
  have hlast : k ∉ firstLast (K .rest) := fun hk => by
    rw [firstLast, List.mem_append] at hk
    exact h .rest (hk.elim List.mem_of_mem_drop List.mem_of_mem_take)
  rcases seat with _ | _ | _ <;> cases part <;> simp [store, enter, append, h, hlast]

theorem Sifted.notMem (h : Sifted parts K K') (hnew : ∀ part, k ∉ K part) (part : Part) :
    k ∉ K' part := fun hk => hnew part ((h.perm part).mem_iff.mp hk)

theorem Sifted.pairwise_iff (h : Sifted parts K K') :
    (K' part).Pairwise (· ≤ ·) ↔ (K part).Pairwise (· ≤ ·) ∨ part ∈ parts := by
  by_cases hpart : part ∈ parts
  · exact iff_of_true (h.sorted part hpart) (.inr hpart)
  · rw [h.same part hpart, or_iff_left hpart]

/-- Parts were sorted one after the other, until a key was found in the last one of them, or all of
them if the key was in none. Only the active part is searched before another one. -/
inductive Searched (k : Nat) (all : List Part) (K K' : Keys) : Bool → Prop where
  | inVain (h : Sifted all K K') : Searched k all K K' false
  | found {searched : List Part} {p : Part} (h : Sifted searched K K') (hk : k ∈ K p)
      (hp : p ∈ searched) (hall : searched ⊆ all)
      (hbefore : ∀ part ∈ searched, part ≠ p → part = .active) : Searched k all K K' true

theorem Searched.of_notMem {found : Bool} (h : Searched k all K K' found)
    (hnew : ∀ part, k ∉ K part) : found = false ∧ Sifted all K K' := by
  cases h with
  | inVain h => exact ⟨rfl, h⟩
  | found _ hk => exact absurd hk (hnew _)

/-- What a removal leaves behind: the order of a part with a hole depends on the keys behind the new
one, and every other part is in order if it was sorted before the key was stored. -/
def Restored (parts : List Part) (hole : Option Part) (k : Nat) (K K' : Keys) : Prop :=
  ∀ part, (K' part).Pairwise (· ≤ ·) ↔
    if hole = some part then (K part).countP (k < ·) ≤ 1
    else (K part).Pairwise (· ≤ ·) ∨ part ∈ parts

/-- A key was stored without being looked for afterwards. -/
theorem Sifted.restored_of_eq (h : Sifted parts K₀ K₁) (hnew : ∀ part, k ∉ K₀ part)
    (hsame : K₂ = K₁.store k seat) : Restored parts none k K₀ (K₂.drop k) := by
  intro part
  rw [hsame, drop_store (h.notMem hnew), if_neg (by simp), h.pairwise_iff]

/-- A key was stored in another list only. -/
theorem Sifted.restored_of_inVain (h : Sifted parts K₀ K₁) (hnew : ∀ part, k ∉ K₀ part)
    (h' : Searched k all K₁ K₂ false) (hsub : all ⊆ parts) :
    Restored parts none k K₀ (K₂.drop k) := by
  cases h' with | inVain h' => ?_
  intro part
  rw [drop_of_notMem (h'.notMem (h.notMem hnew)), if_neg (by simp), (h.again h' hsub).pairwise_iff]

/-- The part where a key was stored and found again is in order without it if at most one key was
behind it. -/
theorem Sifted.pairwise_plug_iff (h : Sifted parts K₀ K₁) (hnew : ∀ part, k ∉ K₀ part)
    (hnodup : ∀ part, (K₀ part).Nodup) (h' : Sifted all (K₁.store k (some part)) K₂)
    (hpart : part ∈ all) :
    (plug k (K₂ part)).Pairwise (· ≤ ·) ↔ (K₀ part).countP (k < ·) ≤ 1 := by
  have hperm : (K₂ part).Perm (K₀ part ++ [k]) :=
    (h'.perm part).trans (K₁.store_self k part ▸ (h.perm part).append_right [k])
  have hfresh : (K₀ part ++ [k]).Nodup := by
    rw [List.nodup_append]
    refine ⟨hnodup part, List.nodup_singleton k, fun x hx y hy => ?_⟩
    obtain rfl := List.mem_singleton.mp hy
    exact fun heq => hnew part (heq ▸ hx)
  rw [CertifiedLp.pairwise_plug_iff (h'.sorted part hpart) (hperm.nodup_iff.mpr hfresh)
    (hperm.mem_iff.mpr (by simp)), hperm.countP_eq, List.countP_append]
  simp

/-- A key was stored and found. Its part is in order if at most one key was behind the new one; the
order of the other part is the one before. -/
theorem Sifted.restored_of_found (h : Sifted parts K₀ K₁) (hnew : ∀ part, k ∉ K₀ part)
    (hnodup : ∀ part, (K₀ part).Nodup) (h' : Searched k all (K₁.store k seat) K₂ true)
    (hactive : .active ∈ all → .active ∈ parts) : Restored parts seat k K₀ (K₂.drop k) := by
  have hnew₁ := h.notMem hnew
  cases h' with | @found searched p h' hk hplace hall hbefore => ?_
  obtain rfl := (mem_store_iff hnew₁).mp hk
  have hhole := h.pairwise_plug_iff hnew hnodup h' hplace
  intro part
  cases p with
  | active =>
    have hk : k ∈ K₂ .active := (h'.perm .active).mem_iff.mpr hk
    cases part with
    | active => exact hhole.trans (if_pos rfl ▸ Iff.rfl)
    | rest =>
      have hrest := h'.same .rest fun hmem => nomatch hbefore .rest hmem (by simp)
      rw [if_neg (by simp), drop, if_pos hk, hrest, ← h.pairwise_iff]
      rw [show K₁.store k (some .active) .rest = firstLast (K₁ .rest) from rfl,
        lastFirst_firstLast]
  | rest =>
    have hk : k ∉ K₂ .active := fun hk => hnew₁ .active ((h'.perm .active).mem_iff.mp hk)
    cases part with
    | active =>
      rw [if_neg (by simp), drop, plug_of_notMem hk, ← h.pairwise_iff]
      by_cases hmem : Part.active ∈ searched
      · exact iff_of_true (h'.sorted .active hmem) (h.sorted .active (hactive (hall hmem)))
      · rw [h'.same .active hmem]
        rfl
    | rest =>
      rw [drop, if_neg hk]
      exact hhole.trans (if_pos rfl ▸ Iff.rfl)

end Keys

end CertifiedLp
