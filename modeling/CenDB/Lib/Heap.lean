import Mathlib.Tactic

/-! # Heaps

A heap keeps its elements in a list and has the operations of a binary heap.  What a heap does with
elements that are not ordered is left open: the laws say that the operations only rearrange elements,
and that they go by the order where it is one (`RanksBy`).

`Heap.ofSort` is the heap that sorts its list. -/

/-- A strict order in which elements that are not below each other are equal in rank. -/
structure RanksBy {α : Type*} (lt : α → α → Prop) : Prop where
  asymm : ∀ a b, lt a b → ¬ lt b a
  connected : ∀ a b c, lt a c → lt a b ∨ lt b c

theorem ranksBy_of_linearOrder {α β : Type*} [LinearOrder β] (rank : α → β) : RanksBy fun a b => rank b < rank a where
  asymm _ _ h := h.not_gt
  connected a b _ h := by
    rcases lt_or_ge (rank b) (rank a) with hlt | hle
    · exact .inl hlt
    · exact .inr (h.trans_le hle)

structure Heap (α : Type*) (lt : α → α → Prop) where
  push : List α → α → List α
  pop : List α → Option (α × List α)
  intoSortedVec : List α → List α
  perm_push : ∀ l a, (push l a).Perm (a :: l)
  pop_eq_none : ∀ l, pop l = none ↔ l = []
  perm_pop : ∀ l a rest, pop l = some (a, rest) → (a :: rest).Perm l
  pop_greatest : RanksBy lt → ∀ l a rest, pop l = some (a, rest) → ∀ b ∈ rest, ¬ lt a b
  perm_intoSortedVec : ∀ l, (intoSortedVec l).Perm l
  sorted_intoSortedVec : RanksBy lt → ∀ l, (intoSortedVec l).Pairwise fun a b => ¬ lt b a

namespace Heap

open List Option

variable {α : Type*} {lt : α → α → Prop} (h : Heap α lt)

/-- The element that `pop` would return. -/
def peek (l : List α) : Option α := (h.pop l).map Prod.fst

variable {h} {l rest : List α} {a : α}

theorem length_push (l : List α) (a : α) : (h.push l a).length = l.length + 1 := (h.perm_push l a).length_eq

theorem mem_push {b : α} : b ∈ h.push l a ↔ b = a ∨ b ∈ l := by
  rw [(h.perm_push l a).mem_iff, mem_cons]

theorem exists_pop (hne : l ≠ []) : ∃ a rest, h.pop l = some (a, rest) := by
  cases hpop : h.pop l with
  | none => exact absurd ((h.pop_eq_none l).mp hpop) hne
  | some e => exact ⟨e.1, e.2, rfl⟩

theorem exists_peek (hne : l ≠ []) : ∃ a, h.peek l = some a := by
  obtain ⟨a, rest, hpop⟩ := exists_pop (h := h) hne
  exact ⟨a, by rw [peek, hpop, map_some]⟩

theorem length_of_pop (hpop : h.pop l = some (a, rest)) : l.length = rest.length + 1 :=
  (h.perm_pop l a rest hpop).length_eq.symm

theorem mem_of_pop (hpop : h.pop l = some (a, rest)) : a ∈ l := (h.perm_pop l a rest hpop).subset mem_cons_self

theorem subset_of_pop (hpop : h.pop l = some (a, rest)) : rest ⊆ l := fun _ hb =>
  (h.perm_pop l a rest hpop).subset (mem_cons_of_mem a hb)

/-- No element is greater than the one that `pop` would return. -/
theorem not_lt_of_peek (hlt : RanksBy lt) (hpeek : h.peek l = some a) {b : α} (hb : b ∈ l) : ¬ lt a b := by
  rw [peek, map_eq_some_iff] at hpeek
  obtain ⟨⟨a', rest⟩, hpop, rfl⟩ := hpeek
  rcases mem_cons.mp ((h.perm_pop l a' rest hpop).symm.subset hb) with rfl | hrest
  · exact fun hself => hlt.asymm b b hself hself
  · exact h.pop_greatest hlt l a' rest hpop b hrest

/-! ### Sorting -/

section sort

variable (lt) [DecidableRel lt]

/-- Rise in rank. -/
def sort (l : List α) : List α := l.insertionSort fun a b => ¬ lt b a

theorem sorted_sort (hlt : RanksBy lt) (l : List α) : (sort lt l).Pairwise fun a b => ¬ lt b a := by
  have htotal : Std.Total fun a b => ¬ lt b a := ⟨fun a b => by
    by_cases hab : lt a b
    · exact .inl (hlt.asymm a b hab)
    · exact .inr hab⟩
  have htrans : IsTrans α fun a b => ¬ lt b a := ⟨fun a b c hba hcb hca =>
    (hlt.connected c b a hca).elim hcb hba⟩
  exact pairwise_insertionSort _ l

theorem perm_sort (l : List α) : (sort lt l).Perm l := perm_insertionSort _ l

theorem sort_eq_nil {l : List α} : sort lt l = [] ↔ l = [] := by
  rw [← length_eq_zero_iff, (perm_sort lt l).length_eq, length_eq_zero_iff]

/-- Merge sort and insertion sort leave elements of one rank in the same order. -/
theorem mergeSort_eq_sort (hlt : RanksBy lt) {le : α → α → Bool} (hle : ∀ a b, le a b = true ↔ ¬ lt b a)
    (l : List α) : l.mergeSort le = sort lt l := by
  have htotal : ∀ a b, (le a b || le b a) = true := fun a b => by
    rw [Bool.or_eq_true, hle, hle]
    by_cases hab : lt a b
    · exact .inl (hlt.asymm a b hab)
    · exact .inr hab
  have htrans : ∀ a b c, le a b = true → le b c = true → le a c = true := fun a b c hab hbc => by
    rw [hle] at *
    exact fun hca => (hlt.connected c b a hca).elim hbc hab
  induction l with
  | nil => simp [sort]
  | cons a l ih =>
    obtain ⟨before, after, hcons, hl, hbefore⟩ := mergeSort_cons htrans htotal a l
    have hsorted := pairwise_mergeSort htrans htotal (a :: l)
    rw [hcons, pairwise_append, pairwise_cons] at hsorted
    have hskip : ∀ b ∈ before, decide (¬ ¬ lt b a) = true := fun b hb => by
      have hb' := hbefore b hb
      rw [Bool.not_eq_true', ← Bool.not_eq_true, hle] at hb'
      exact decide_eq_true hb'
    rw [sort, insertionSort_cons, ← sort, ← ih, hl, hcons, orderedInsert_eq_take_drop,
      takeWhile_append_of_pos hskip, dropWhile_append_of_pos hskip]
    cases after with
    | nil => simp
    | cons b after =>
      have hab := (hle a b).mp (hsorted.2.1.1 b mem_cons_self)
      rw [takeWhile_cons_of_neg (by simpa using hab), dropWhile_cons_of_neg (by simpa using hab), append_nil]

/-- The heap that sorts its list. -/
def ofSort : Heap α lt where
  push l a := a :: l
  pop l := (sort lt l).getLast?.map fun a => (a, (sort lt l).dropLast)
  intoSortedVec := sort lt
  perm_push _ _ := List.Perm.refl _
  pop_eq_none l := by simp [sort_eq_nil]
  perm_pop l a rest hpop := by
    obtain ⟨b, hlast, heq⟩ := map_eq_some_iff.mp hpop
    obtain ⟨rfl, rfl⟩ := Prod.mk.inj heq
    have hperm := perm_sort lt l
    rw [← dropLast_append_getLast? b hlast] at hperm
    exact (perm_append_singleton b _).symm.trans hperm
  pop_greatest hlt l a rest hpop b hb := by
    obtain ⟨c, hlast, heq⟩ := map_eq_some_iff.mp hpop
    obtain ⟨rfl, rfl⟩ := Prod.mk.inj heq
    have hsorted := sorted_sort lt hlt l
    rw [← dropLast_append_getLast? c hlast, pairwise_append] at hsorted
    exact hsorted.2.2 b hb c (mem_singleton_self c)
  perm_intoSortedVec := perm_sort lt
  sorted_intoSortedVec := sorted_sort lt

end sort

end Heap
