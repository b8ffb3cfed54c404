import Mathlib.Tactic

/-! # Keys and their prefixes

Keys are lists over an alphabet.  `commonLength` counts the leading elements two keys share;
`next_of_initial` and `eq_of_next_none` read the element after a known initial part; two keys
that differ right after a common part are comparable in neither direction (`not_initial_of_next`). -/

namespace Prefixes

open List

variable {α : Type*}

/-- The number of leading elements that two keys share. -/
def commonLength [DecidableEq α] : List α → List α → ℕ
  | a :: as, b :: bs => if a = b then commonLength as bs + 1 else 0
  | _, _ => 0

section common

variable [DecidableEq α]

theorem commonLength_cons (a b : α) (as bs : List α) :
    commonLength (a :: as) (b :: bs) = if a = b then commonLength as bs + 1 else 0 := rfl

theorem commonLength_le_left (as bs : List α) : commonLength as bs ≤ as.length := by
  induction as generalizing bs with
  | nil => exact Nat.zero_le _
  | cons a as ih =>
    cases bs with
    | nil => exact Nat.zero_le _
    | cons b bs =>
      rw [commonLength_cons]
      by_cases hab : a = b
      · rw [if_pos hab]
        exact Nat.succ_le_succ (ih bs)
      · simp [hab]

theorem take_commonLength (as bs : List α) : as.take (commonLength as bs) <+: bs := by
  induction as generalizing bs with
  | nil => simp
  | cons a as ih =>
    cases bs with
    | nil => exact nil_prefix
    | cons b bs =>
      rw [commonLength_cons]
      by_cases hab : a = b
      · rw [if_pos hab, take_succ_cons]
        exact cons_prefix_cons.mpr ⟨hab, ih bs⟩
      · simp [hab]

variable {as bs : List α}

theorem commonLength_eq_length : commonLength as bs = as.length ↔ as <+: bs := by
  constructor
  · intro h
    have hpre := take_commonLength as bs
    rwa [h, take_length] at hpre
  · intro h
    induction as generalizing bs with
    | nil => rfl
    | cons a as ih =>
      obtain ⟨t, rfl⟩ := h
      rw [cons_append, commonLength_cons, if_pos rfl, ih (prefix_append as t), length_cons]

/-- After the shared elements the keys differ, or one of them ends. -/
theorem getElem?_commonLength_ne {a b : α} (ha : as[commonLength as bs]? = some a)
    (hb : bs[commonLength as bs]? = some b) : a ≠ b := by
  induction as generalizing bs with
  | nil => cases ha
  | cons x as ih =>
    cases bs with
    | nil => cases hb
    | cons y bs =>
      rw [commonLength_cons] at ha hb
      by_cases hxy : x = y
      · rw [if_pos hxy, getElem?_cons_succ] at ha hb
        exact ih ha hb
      · rw [if_neg hxy] at ha hb
        cases ha
        cases hb
        exact hxy

end common

variable {p k k' : List α} {a b : α}

/-- The element after an initial part. -/
theorem next_of_initial (h : p <+: k) : k[p.length]? = some a ↔ p ++ [a] <+: k := by
  obtain ⟨s, rfl⟩ := h
  rw [getElem?_append_right (le_refl _), Nat.sub_self, prefix_append_right_inj]
  cases s with
  | nil => simp
  | cons x s => simp [cons_prefix_cons, eq_comm]

/-- A key with nothing after its initial part. -/
theorem eq_of_next_none (h : p <+: k) (hnext : k[p.length]? = none) : k = p := by
  rw [List.getElem?_eq_none_iff] at hnext
  exact (h.eq_of_length_le hnext).symm

/-- Keys that differ right after a common part are not initial parts of each other. -/
theorem not_initial_of_next (ha : p ++ [a] <+: k) (hb : p ++ [b] <+: k') (hne : a ≠ b) : ¬ k <+: k' := by
  intro h
  have hlen : (p ++ [a]).length ≤ (p ++ [b]).length := by simp
  have heq := prefix_of_prefix_length_le (ha.trans h) hb hlen
  rw [prefix_append_right_inj, cons_prefix_cons] at heq
  exact hne heq.1

/-- The order of two keys is the order of the elements after a common part. -/
theorem lt_of_next [LT α] (ha : p ++ [a] <+: k) (hb : p ++ [b] <+: k') (hlt : a < b) : k < k' := by
  obtain ⟨s, rfl⟩ := ha
  obtain ⟨s', rfl⟩ := hb
  induction p with
  | nil => exact cons_lt_cons_iff.mpr (.inl hlt)
  | cons x p ih => exact cons_lt_cons_iff.mpr (.inr ⟨rfl, ih⟩)

end Prefixes
