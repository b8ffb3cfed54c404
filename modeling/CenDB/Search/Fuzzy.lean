import CenDB.Lib.EditDistance
import Mathlib.Data.Char

/-! # Fuzzy matching

The distance of two texts is computed with two rows of a table.  After `i` rounds the row that is kept holds
the distances of the first `i` characters to every front of the other text (`levenshteinChars_eq`), so that
the result is the least number of edits.  A search keeps the terms of a vocabulary that are near enough and
sorts them (`fuzzySearch_exact`). -/

namespace CenDB.Search

/-- A row of the table for a text of `n` characters. -/
abbrev Row (n : ℕ) := Vector ℕ (n + 1)

/-- Fills the entry behind `j` in the row of the character `x`, from the row before. -/
def fillCell (x : Char) (b : List Char) (prev curr : Row b.length) (j : Fin b.length) : Row b.length :=
  let cost := if x = b[j] then 0 else 1
  let deletion := prev[j.val + 1] + 1
  let insertion := curr[j.val] + 1
  let substitution := prev[j.val] + cost
  curr.set (j.val + 1) (min (min deletion insertion) substitution)

/-- Fills the row of the character `x`, which is the `i`-th. -/
def fillRow (x : Char) (i : ℕ) (b : List Char) (prev curr : Row b.length) : Row b.length :=
  Fin.foldl b.length (fillCell x b prev) (curr.set 0 i)

def levenshteinChars (a b : List Char) : ℕ :=
  let m := a.length
  let n := b.length
  if m = 0 then n
  else if n = 0 then m
  else
    let prev : Row n := .ofFn fun j => j
    let curr : Row n := .replicate (n + 1) 0
    -- the rows are swapped after each round
    let rows := Fin.foldl m (fun (rows : Row n × Row n) i =>
      (fillRow a[i] (i + 1) b rows.1 rows.2, rows.1)) (prev, curr)
    rows.1[n]

/-- `a.chars()` and `b.chars()` are the texts themselves. -/
def levenshtein (a b : List Char) : ℕ := levenshteinChars a b

/-- By distance, then alphabetically. -/
def before (a b : List Char × ℕ) : Bool := a.2 < b.2 || (a.2 == b.2 && decide (a.1 ≤ b.1))

def fuzzySearchImpl (term : List Char) (vocabulary : List (List Char)) (maxDistance limit : ℕ) :
    List (List Char × ℕ) :=
  let results := ((vocabulary.map fun v => (v, levenshtein term v)).filter (·.2 ≤ maxDistance)).mergeSort before
  if limit < results.length then results.take limit else results

/-- `usize::MAX` -/
def usizeMax : ℕ := 2 ^ 64 - 1

def fuzzySearch (term : List Char) (vocabulary : List (List Char)) (maxDistance : ℕ) : List (List Char × ℕ) :=
  fuzzySearchImpl term vocabulary maxDistance usizeMax

def fuzzySearchWithLimit (term : List Char) (vocabulary : List (List Char)) (maxDistance limit : ℕ) :
    List (List Char × ℕ) :=
  fuzzySearchImpl term vocabulary maxDistance limit

/-! ### The table -/

/-- What the first rounds of a loop preserve. -/
theorem foldl_invariant {σ : Type*} {n : ℕ} {f : σ → Fin n → σ} (P : ℕ → σ → Prop) {s : σ} (h0 : P 0 s)
    (hstep : ∀ (i : Fin n) s, P i s → P (i + 1) (f s i)) : P n (Fin.foldl n f s) := by
  induction n with
  | zero => exact h0
  | succ n ih =>
    rw [Fin.foldl_succ_last]
    exact hstep (Fin.last n) _ (ih fun i s h => hstep i.castSucc s h)

/-- The distance of the first `i` characters to the first `j`. -/
def cell (a b : List Char) (i j : ℕ) : ℕ := editDistance (a.take i).reverse (b.take j).reverse

variable {b a : List Char} {j i : ℕ}

theorem cell_zero_left (a : List Char) (h : j ≤ b.length) : cell a b 0 j = j := by
  rw [cell, List.take_zero, List.reverse_nil, editDistance, List.length_reverse, List.length_take_of_le h]

theorem cell_zero_right (b : List Char) (h : i ≤ a.length) : cell a b i 0 = i := by
  rw [cell, editDistance_comm, List.take_zero, List.reverse_nil, editDistance, List.length_reverse,
    List.length_take_of_le h]

theorem cell_succ (hi : i < a.length) (hj : j < b.length) : cell a b (i + 1) (j + 1) =
      min (min (cell a b i (j + 1) + 1) (cell a b (i + 1) j + 1)) (cell a b i j + if a[i] = b[j] then 0 else 1) := by
  have ha : (a.take (i + 1)).reverse = a[i] :: (a.take i).reverse := by simp
  have hb : (b.take (j + 1)).reverse = b[j] :: (b.take j).reverse := by simp
  rw [cell, cell, cell, cell, ha, hb, editDistance]

theorem cell_length (a b : List Char) : cell a b a.length b.length = editDistance a b := by
  rw [cell, List.take_length, List.take_length, editDistance_reverse]

/-- The row holds the distances of the first `i` characters. -/
def Holds (a b : List Char) (i : ℕ) (row : Row b.length) : Prop :=
  ∀ j (hj : j < b.length + 1), row[j] = cell a b i j

theorem Holds.fillRow (hi : i < a.length) {prev : Row b.length} (h : Holds a b i prev) (curr : Row b.length) :
    Holds a b (i + 1) (fillRow a[i] (i + 1) b prev curr) := by
  have hloop : ∀ j (hj : j < b.length + 1), j ≤ b.length →
      (CenDB.Search.fillRow a[i] (i + 1) b prev curr)[j] = cell a b (i + 1) j := by
    refine foldl_invariant (fun k row => ∀ j (hj : j < b.length + 1), j ≤ k → row[j] = cell a b (i + 1) j) ?_ ?_
    · intro j hj hj0
      obtain rfl := Nat.le_zero.mp hj0
      rw [Vector.getElem_set_self, cell_zero_right b hi]
    · intro k row hrow j hj hjk
      rw [fillCell]
      by_cases hlast : j = k + 1
      · subst hlast
        rw [Vector.getElem_set_self, h, h, hrow k _ le_rfl, cell_succ hi k.isLt]
        rfl
      · rw [Vector.getElem_set_ne _ _ (Ne.symm hlast)]
        exact hrow j hj (by omega)
  exact fun j hj => hloop j hj (Nat.le_of_lt_succ hj)

/-- **The rows compute the distance.** -/
theorem levenshteinChars_eq (a b : List Char) : levenshteinChars a b = editDistance a b := by
  simp only [levenshteinChars]
  split_ifs with ha hb
  · rw [List.eq_nil_of_length_eq_zero ha, editDistance]
  · rw [List.eq_nil_of_length_eq_zero hb, editDistance_comm, editDistance]
  · have hrows := foldl_invariant (f := fun (rows : Row b.length × Row b.length) (i : Fin a.length) =>
        (fillRow a[i] (i + 1) b rows.1 rows.2, rows.1))
      (fun i rows => Holds a b i rows.1) (s := (.ofFn fun j => j, .replicate (b.length + 1) 0))
      (fun j hj => by rw [Vector.getElem_ofFn, cell_zero_left a (Nat.le_of_lt_succ hj)])
      (fun i rows h => h.fillRow i.isLt rows.2)
    rw [← cell_length]
    exact hrows b.length (Nat.lt_succ_self _)

/-! ### Searching -/

theorem before_iff {a b : List Char × ℕ} : before a b = true ↔ a.2 < b.2 ∨ a.2 = b.2 ∧ a.1 ≤ b.1 := by
  simp [before]

theorem before_trans (a b c : List Char × ℕ) (hab : before a b = true) (hbc : before b c = true) :
    before a c = true := by
  rw [before_iff] at *
  obtain hab | ⟨hab, hab'⟩ := hab
  · omega
  · obtain hbc | ⟨hbc, hbc'⟩ := hbc
    · omega
    · exact Or.inr ⟨hab.trans hbc, hab'.trans hbc'⟩

theorem before_total (a b : List Char × ℕ) : (before a b || before b a) = true := by
  rw [Bool.or_eq_true, before_iff, before_iff]
  rcases lt_trichotomy a.2 b.2 with h | h | h
  · omega
  · exact (le_total a.1 b.1).imp (fun hle => Or.inr ⟨h, hle⟩) fun hle => Or.inr ⟨h.symm, hle⟩
  · omega

/-- The terms of a vocabulary that are near enough. -/
theorem fuzzySearch_eq {vocabulary : List (List Char)} (h : vocabulary.length ≤ usizeMax) (term : List Char)
    (maxDistance : ℕ) : fuzzySearch term vocabulary maxDistance =
      ((vocabulary.map fun v => (v, levenshtein term v)).filter (·.2 ≤ maxDistance)).mergeSort before := by
  have hlength : ¬usizeMax <
      (((vocabulary.map fun v => (v, levenshtein term v)).filter (·.2 ≤ maxDistance)).mergeSort before).length := by
    rw [List.length_mergeSort, not_lt]
    exact (List.length_filter_le _ _).trans (by rwa [List.length_map])
  exact if_neg hlength

/-- **Distances are those of the shortest scripts**, so they are zero for equal texts only, symmetric and a
metric, and **a search is exact and sorted**. -/
theorem fuzzy_exact (a b c term : List Char) {vocabulary : List (List Char)} (h : vocabulary.length ≤ usizeMax)
    (maxDistance : ℕ) :
    IsLeast {n | Edits n a b} (levenshtein a b) ∧ (levenshtein a b = 0 ↔ a = b) ∧
      levenshtein a b = levenshtein b a ∧ levenshtein a c ≤ levenshtein a b + levenshtein b c ∧
      (fuzzySearch term vocabulary maxDistance).Perm
        ((vocabulary.filter fun v => levenshtein term v ≤ maxDistance).map fun v => (v, levenshtein term v)) ∧
      (fuzzySearch term vocabulary maxDistance).Pairwise fun x y => x.2 < y.2 ∨ x.2 = y.2 ∧ x.1 ≤ y.1 := by
  have heq : ∀ a b, levenshtein a b = editDistance a b := levenshteinChars_eq
  rw [fuzzySearch_eq h]
  refine ⟨?_, ?_, ?_, ?_, ?_, ?_⟩
  · rw [heq]
    exact isLeast_editDistance a b
  · rw [heq, editDistance_eq_zero_iff]
  · rw [heq, heq, editDistance_comm]
  · rw [heq, heq, heq]
    exact editDistance_triangle a b c
  · refine (List.mergeSort_perm _ _).trans ?_
    rw [List.filter_map]
    exact List.Perm.refl _
  · exact (List.pairwise_mergeSort before_trans before_total _).imp before_iff.mp

theorem fuzzy_exact_cat :
    (fuzzySearch "cat".toList ["dog".toList, "cart".toList] 1).Perm [("cart".toList, 1)] := by
  have h := (@fuzzy_exact [] [] [] "cat".toList ["dog".toList, "cart".toList] (by decide) 1).2.2.2.2.1
  have hnear : ((["dog".toList, "cart".toList].filter fun v => levenshtein "cat".toList v ≤ 1).map fun v =>
      (v, levenshtein "cat".toList v)) = [("cart".toList, 1)] := by decide
  rwa [hnear] at h

end CenDB.Search
