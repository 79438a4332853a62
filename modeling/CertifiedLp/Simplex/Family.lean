/-!
# Finite families

Families of values with a fixed number of members: the sum of a family, and families that are
stored and can be changed at one place. Members are looked up by an index that is known to be in
range.
-/

namespace CertifiedLp

/-- The sum of a family of rational numbers. -/
def sumOver (n : Nat) (f : Fin n → Rat) : Rat := Fin.foldl n (fun total i => total + f i) 0

@[simp] theorem sumOver_zero (f : Fin 0 → Rat) : sumOver 0 f = 0 := by simp [sumOver]

theorem sumOver_succ (n : Nat) (f : Fin (n + 1) → Rat) :
    sumOver (n + 1) f = sumOver n (fun i => f i.castSucc) + f (Fin.last n) := by
  simp [sumOver, Fin.foldl_succ_last]

variable {α : Type} {n : Nat}

@[simp] theorem get_ofFn (f : Fin n → α) (i : Fin n) : (Vector.ofFn f).get i = f i := by
  cases i
  exact Vector.getElem_ofFn _

/-- A family with one member replaced. -/
def replaceAt (v : Vector α n) (i : Fin n) (x : α) : Vector α n := v.set i x i.isLt

theorem get_replaceAt (v : Vector α n) (i j : Fin n) (x : α) :
    (replaceAt v i x).get j = if i = j then x else v.get j := by
  cases i
  cases j
  simp only [Fin.mk.injEq]
  exact Vector.getElem_set _ _

@[simp] theorem get_replaceAt_self (v : Vector α n) (i : Fin n) (x : α) :
    (replaceAt v i x).get i = x := by
  rw [get_replaceAt, if_pos rfl]

@[simp] theorem get_replaceAt_of_ne (v : Vector α n) {i j : Fin n} (h : i ≠ j) (x : α) :
    (replaceAt v i x).get j = v.get j := by
  rw [get_replaceAt, if_neg h]

end CertifiedLp
