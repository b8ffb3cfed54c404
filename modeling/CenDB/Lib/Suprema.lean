import Mathlib.Order.Lattice

/-! # Joins of lists

`joinAll f s xs` joins what `f` makes of each element of a list to `s`, one after another.  It is the least
upper bound (`joinAll_le_iff`), so that it depends on the elements only, not on their order or repetition
(`joinAll_congr`), and the joins of two lists are joined to that of both (`joinAll_sup_joinAll`). -/

variable {α β : Type*} [SemilatticeSup α]

/-- Joins the elements of a list to `s`. -/
def joinAll (f : β → α) (s : α) (xs : List β) : α := xs.foldl (fun s x => s ⊔ f x) s

variable {f : β → α} {s t : α} {xs ys : List β}

theorem joinAll_cons (x : β) : joinAll f s (x :: xs) = joinAll f (s ⊔ f x) xs := rfl

theorem joinAll_le_iff : joinAll f s xs ≤ t ↔ s ≤ t ∧ ∀ x ∈ xs, f x ≤ t := by
  induction xs generalizing s with
  | nil => simp [joinAll]
  | cons x xs ih => rw [joinAll_cons, ih, sup_le_iff, List.forall_mem_cons, and_assoc]

theorem joinAll_congr (h : ∀ x, x ∈ xs ↔ x ∈ ys) : joinAll f s xs = joinAll f s ys :=
  eq_of_forall_ge_iff fun t => by simp only [joinAll_le_iff, h]

theorem joinAll_sup_joinAll : joinAll f s xs ⊔ joinAll f s ys = joinAll f s (xs ++ ys) :=
  eq_of_forall_ge_iff fun t => by
    rw [sup_le_iff, joinAll_le_iff, joinAll_le_iff, joinAll_le_iff, List.forall_mem_append, ← and_and_left]
