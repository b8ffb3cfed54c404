import Mathlib.Tactic

/-! # Edit distance

An edit inserts, deletes or replaces one element of a list, and `Edits n s t` is a script of `n` edits.
Lists have scripts of at most `n` edits exactly if they are aligned with at most `n` gaps and mismatches
(`aligned_iff`).  Alignments compose (`Aligned.trans`), and their recursion along both lists is that of
`editDistance`, which is therefore the least length of a script (`isLeast_editDistance`). -/

variable {α : Type*}

/-- Inserts, deletes or replaces one element. -/
inductive Edit : List α → List α → Prop
  | insert (l r : List α) (x : α) : Edit (l ++ r) (l ++ x :: r)
  | delete (l r : List α) (x : α) : Edit (l ++ x :: r) (l ++ r)
  | replace (l r : List α) (x y : α) : Edit (l ++ x :: r) (l ++ y :: r)

/-- A script of `n` edits. -/
inductive Edits : ℕ → List α → List α → Prop
  | nil (s : List α) : Edits 0 s s
  | snoc {n : ℕ} {s t u : List α} : Edits n s t → Edit t u → Edits (n + 1) s u

/-- The lists are aligned with at most `n` gaps and mismatches. -/
inductive Aligned : ℕ → List α → List α → Prop
  | nil (n : ℕ) : Aligned n [] []
  | insert {n : ℕ} {s t : List α} (y : α) : Aligned n s t → Aligned (n + 1) s (y :: t)
  | delete {n : ℕ} {s t : List α} (x : α) : Aligned n s t → Aligned (n + 1) (x :: s) t
  | keep {n : ℕ} {s t : List α} (x : α) : Aligned n s t → Aligned n (x :: s) (x :: t)
  | replace {n : ℕ} {s t : List α} (x y : α) : Aligned n s t → Aligned (n + 1) (x :: s) (y :: t)

variable {m n : ℕ} {s t u : List α} {x y : α}

/-! ### Alignments -/

namespace Aligned

theorem mono (h : Aligned m s t) (hmn : m ≤ n) : Aligned n s t := by
  induction h generalizing n with
  | nil => exact .nil n
  | keep x _ ih => exact .keep x (ih hmn)
  | insert y _ ih =>
    cases n with
    | zero => exact absurd hmn (Nat.not_succ_le_zero _)
    | succ n => exact .insert y (ih (Nat.le_of_succ_le_succ hmn))
  | delete x _ ih =>
    cases n with
    | zero => exact absurd hmn (Nat.not_succ_le_zero _)
    | succ n => exact .delete x (ih (Nat.le_of_succ_le_succ hmn))
  | replace x y _ ih =>
    cases n with
    | zero => exact absurd hmn (Nat.not_succ_le_zero _)
    | succ n => exact .replace x y (ih (Nat.le_of_succ_le_succ hmn))

theorem refl (n : ℕ) (s : List α) : Aligned n s s := by
  induction s with
  | nil => exact .nil n
  | cons x s ih => exact .keep x ih

theorem symm (h : Aligned n s t) : Aligned n t s := by
  induction h with
  | nil n => exact .nil n
  | insert y _ ih => exact .delete y ih
  | delete x _ ih => exact .insert x ih
  | keep x _ ih => exact .keep x ih
  | replace x y _ ih => exact .replace y x ih

theorem eq_of_zero (h : Aligned 0 s t) : s = t := by
  generalize hn : 0 = n at h
  induction h with
  | nil => rfl
  | keep x _ ih => rw [ih hn]
  | insert | delete | replace => cases hn

/-- An alignment of an alignment: the first that has no gap in the middle list is followed by the second. -/
theorem trans (h : Aligned m s t) (h' : Aligned n t u) : Aligned (m + n) s u := by
  induction hlength : s.length + t.length + u.length using Nat.strong_induction_on generalizing m n s t u with
  | h l ih =>
    subst hlength
    cases h with
    | nil m => exact h'.mono (Nat.le_add_left n m)
    | delete x h =>
      have := ih _ (by simp) h h' rfl
      exact (Aligned.delete x this).mono (by omega)
    | insert y h =>
      cases h' with
      | insert z h' =>
        have := ih _ (by simp) (Aligned.insert y h) h' rfl
        exact (Aligned.insert z this).mono (by omega)
      | delete _ h' => exact (ih _ (by simp) h h' rfl).mono (by omega)
      | keep _ h' => exact (Aligned.insert y (ih _ (by simp; omega) h h' rfl)).mono (by omega)
      | replace _ z h' => exact (Aligned.insert z (ih _ (by simp; omega) h h' rfl)).mono (by omega)
    | keep x h =>
      cases h' with
      | insert z h' =>
        have := ih _ (by simp) (Aligned.keep x h) h' rfl
        exact (Aligned.insert z this).mono (by omega)
      | delete _ h' => exact (Aligned.delete x (ih _ (by simp; omega) h h' rfl)).mono (by omega)
      | keep _ h' => exact Aligned.keep x (ih _ (by simp; omega) h h' rfl)
      | replace _ z h' => exact (Aligned.replace x z (ih _ (by simp; omega) h h' rfl)).mono (by omega)
    | replace x y h =>
      cases h' with
      | insert z h' =>
        have := ih _ (by simp) (Aligned.replace x y h) h' rfl
        exact (Aligned.insert z this).mono (by omega)
      | delete _ h' => exact (Aligned.delete x (ih _ (by simp; omega) h h' rfl)).mono (by omega)
      | keep _ h' => exact (Aligned.replace x y (ih _ (by simp; omega) h h' rfl)).mono (by omega)
      | replace _ z h' => exact (Aligned.replace x z (ih _ (by simp; omega) h h' rfl)).mono (by omega)

theorem length_le (h : Aligned n [] t) : t.length ≤ n := by
  induction t generalizing n with
  | nil => exact Nat.zero_le n
  | cons y t ih =>
    cases h with
    | insert _ h => exact Nat.succ_le_succ (ih h)

theorem of_length_le (h : t.length ≤ n) : Aligned n [] t := by
  induction t generalizing n with
  | nil => exact .nil n
  | cons y t ih =>
    cases n with
    | zero => exact absurd h (Nat.not_succ_le_zero _)
    | succ n => exact .insert y (ih (Nat.le_of_succ_le_succ h))

theorem append_left (l : List α) (h : Aligned n s t) : Aligned n (l ++ s) (l ++ t) := by
  induction l with
  | nil => exact h
  | cons x l ih => exact .keep x ih

end Aligned

/-! ### Scripts -/

theorem Edit.aligned (h : Edit s t) : Aligned 1 s t := by
  cases h with
  | insert l r x => exact (Aligned.insert x (.refl 0 r)).append_left l
  | delete l r x => exact (Aligned.delete x (.refl 0 r)).append_left l
  | replace l r x y => exact (Aligned.replace x y (.refl 0 r)).append_left l

theorem Edit.cons (x : α) (h : Edit s t) : Edit (x :: s) (x :: t) := by
  cases h with
  | insert l r y => exact .insert (x :: l) r y
  | delete l r y => exact .delete (x :: l) r y
  | replace l r y z => exact .replace (x :: l) r y z

theorem Edit.reverse (h : Edit s t) : Edit s.reverse t.reverse := by
  cases h with
  | insert l r x => simpa using Edit.insert r.reverse l.reverse x
  | delete l r x => simpa using Edit.delete r.reverse l.reverse x
  | replace l r x y => simpa using Edit.replace r.reverse l.reverse x y

theorem Edits.cons (x : α) (h : Edits n s t) : Edits n (x :: s) (x :: t) := by
  induction h with
  | nil s => exact .nil (x :: s)
  | snoc _ hedit ih => exact .snoc ih (hedit.cons x)

theorem Edits.reverse (h : Edits n s t) : Edits n s.reverse t.reverse := by
  induction h with
  | nil s => exact .nil s.reverse
  | snoc _ hedit ih => exact .snoc ih hedit.reverse

theorem Edits.aligned (h : Edits n s t) : Aligned n s t := by
  induction h with
  | nil s => exact .refl 0 s
  | snoc _ hedit ih => exact ih.trans hedit.aligned

theorem Aligned.edits (h : Aligned n s t) : ∃ m ≤ n, Edits m s t := by
  induction h with
  | nil n => exact ⟨0, Nat.zero_le n, .nil []⟩
  | insert y _ ih =>
    obtain ⟨m, hm, hscript⟩ := ih
    exact ⟨m + 1, Nat.succ_le_succ hm, .snoc hscript (.insert [] _ y)⟩
  | delete x _ ih =>
    obtain ⟨m, hm, hscript⟩ := ih
    exact ⟨m + 1, Nat.succ_le_succ hm, .snoc (hscript.cons x) (.delete [] _ x)⟩
  | keep x _ ih =>
    obtain ⟨m, hm, hscript⟩ := ih
    exact ⟨m, hm, hscript.cons x⟩
  | replace x y _ ih =>
    obtain ⟨m, hm, hscript⟩ := ih
    exact ⟨m + 1, Nat.succ_le_succ hm, .snoc (hscript.cons x) (.replace [] _ x y)⟩

/-- **Scripts are alignments.** -/
theorem aligned_iff : Aligned n s t ↔ ∃ m ≤ n, Edits m s t :=
  ⟨Aligned.edits, fun ⟨_, hm, h⟩ => h.aligned.mono hm⟩

theorem aligned_reverse_iff : Aligned n s.reverse t.reverse ↔ Aligned n s t := by
  rw [aligned_iff, aligned_iff]
  refine exists_congr fun m => and_congr_right fun _ => ⟨fun h => ?_, Edits.reverse⟩
  simpa using h.reverse

/-! ### The distance -/

section
variable [DecidableEq α]

/-- The distance by recursion along both lists. -/
def editDistance : List α → List α → ℕ
  | [], t => t.length
  | s, [] => s.length
  | x :: s, y :: t =>
    min (min (editDistance s (y :: t) + 1) (editDistance (x :: s) t + 1)) (editDistance s t + if x = y then 0 else 1)
termination_by s t => s.length + t.length

theorem editDistance_le_iff : editDistance s t ≤ n ↔ Aligned n s t := by
  fun_induction editDistance s t generalizing n with
  | case1 t => exact ⟨Aligned.of_length_le, Aligned.length_le⟩
  | case2 s => exact ⟨fun h => (Aligned.of_length_le h).symm, fun h => h.symm.length_le⟩
  | case3 x s y t ihdelete ihinsert ihkeep =>
    rw [min_le_iff, min_le_iff]
    constructor
    · rintro ((h | h) | h)
      · exact (Aligned.delete x (ihdelete.mp le_rfl)).mono h
      · exact (Aligned.insert y (ihinsert.mp le_rfl)).mono h
      · split_ifs at h with hxy
        · subst hxy
          exact (Aligned.keep x (ihkeep.mp le_rfl)).mono h
        · exact (Aligned.replace x y (ihkeep.mp le_rfl)).mono h
    · intro h
      cases h with
      | delete _ h => exact Or.inl (Or.inl (Nat.succ_le_succ (ihdelete.mpr h)))
      | insert _ h => exact Or.inl (Or.inr (Nat.succ_le_succ (ihinsert.mpr h)))
      | keep _ h =>
        rw [if_pos rfl]
        exact Or.inr (ihkeep.mpr h)
      | replace _ _ h =>
        have hcost : (if x = y then 0 else 1) ≤ 1 := by split_ifs <;> decide
        exact Or.inr (Nat.add_le_add (ihkeep.mpr h) hcost)

/-- **The distance is the least length of a script.** -/
theorem isLeast_editDistance (s t : List α) : IsLeast {n | Edits n s t} (editDistance s t) := by
  obtain ⟨m, hm, hscript⟩ := (editDistance_le_iff.mp (le_refl (editDistance s t))).edits
  have hle : ∀ n ∈ {n | Edits n s t}, editDistance s t ≤ n := fun n h => editDistance_le_iff.mpr h.aligned
  rw [← (hle m hscript).antisymm hm] at hscript
  exact ⟨hscript, hle⟩

theorem editDistance_eq_zero_iff : editDistance s t = 0 ↔ s = t := by
  rw [← Nat.le_zero, editDistance_le_iff]
  exact ⟨Aligned.eq_of_zero, fun h => h ▸ .refl 0 s⟩

theorem editDistance_comm (s t : List α) : editDistance s t = editDistance t s :=
  eq_of_forall_ge_iff fun n => by
    rw [editDistance_le_iff, editDistance_le_iff]
    exact ⟨Aligned.symm, Aligned.symm⟩

theorem editDistance_triangle (s t u : List α) : editDistance s u ≤ editDistance s t + editDistance t u :=
  editDistance_le_iff.mpr ((editDistance_le_iff.mp le_rfl).trans (editDistance_le_iff.mp le_rfl))

theorem editDistance_reverse (s t : List α) : editDistance s.reverse t.reverse = editDistance s t :=
  eq_of_forall_ge_iff fun n => by rw [editDistance_le_iff, editDistance_le_iff, aligned_reverse_iff]

end
